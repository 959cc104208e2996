import Mathlib.Data.List.Forall2
import Mathlib.Data.List.Induction
import SpeechBridge.Proofs.RoundTrip

/-!
# The grammar of the wire form

A list is written in pieces between bars. A piece has a text up to its last colon, and behind that
a numeral with white space around it. Main statement: reading accepts exactly what is of this form,
and of anything else it reports the first piece that is not.
-/
namespace SpeechBridge

namespace Numeral

/-- One digit or more, and the number they stand for. -/
inductive Digits : List Char → Nat → Prop where
  | first (d : Char) : d.isDigit → Digits [d] (d.toNat - 48)
  | next {ds : List Char} {n : Nat} (d : Char) : Digits ds n → d.isDigit →
      Digits (ds ++ [d]) (10 * n + (d.toNat - 48))

inductive Signed : List Char → Int → Prop where
  | plain {ds : List Char} {n : Nat} : Digits ds n → Signed ds n
  | plus {ds : List Char} {n : Nat} : Digits ds n → Signed ('+' :: ds) n
  | minus {ds : List Char} {n : Nat} : Digits ds n → Signed ('-' :: ds) (-n)

theorem Digits.isDigit {ds : List Char} {n : Nat} (h : Digits ds n) : ∀ d ∈ ds, d.isDigit := by
  induction h with
  | first d hd => simpa using hd
  | next d _ hd ih =>
    intro c hc
    rcases List.mem_append.mp hc with hc | hc
    · exact ih c hc
    · rwa [List.mem_singleton.mp hc]

theorem Digits.ne_nil {ds : List Char} {n : Nat} (h : Digits ds n) : ds ≠ [] := by
  cases h <;> simp

theorem Digits.ofDigitChars {ds : List Char} {n : Nat} (h : Digits ds n) :
    Nat.ofDigitChars 10 ds 0 = n := by
  induction h with
  | first d _ => simp [Nat.ofDigitChars_cons]
  | next d _ _ ih => simp [Nat.ofDigitChars_append, Nat.ofDigitChars_cons, ih]

theorem digits_ofDigitChars {ds : List Char} (hne : ds ≠ []) (hd : ∀ d ∈ ds, d.isDigit) :
    Digits ds (Nat.ofDigitChars 10 ds 0) := by
  induction ds using List.reverseRecOn with
  | nil => exact absurd rfl hne
  | append_singleton ds d ih =>
    rw [List.forall_mem_append] at hd
    have hlast : d.isDigit := hd.2 d (List.mem_singleton_self d)
    by_cases hds : ds = []
    · subst hds
      simpa [Nat.ofDigitChars_cons] using Digits.first d hlast
    · simpa [Nat.ofDigitChars_append, Nat.ofDigitChars_cons] using (ih hds hd.1).next d hlast

theorem readDigits_eq_some_iff {cs : List Char} {n : Nat} :
    readDigits cs = some n ↔ Digits cs n := by
  unfold readDigits
  constructor
  · intro h
    split at h
    next hc =>
      obtain rfl := Option.some.inj h
      exact digits_ofDigitChars hc.1 (List.all_eq_true.mp hc.2)
    · cases h
  · intro h
    rw [if_pos ⟨h.ne_nil, List.all_eq_true.mpr h.isDigit⟩, h.ofDigitChars]

theorem readSigned_eq_some_iff {cs : List Char} {i : Int} :
    readSigned cs = some i ↔ Signed cs i := by
  constructor
  · intro h
    unfold readSigned at h
    split at h
    next ds =>
      obtain ⟨n, hn, rfl⟩ : ∃ n, readDigits ds = some n ∧ (n : Int) = i := by
        simpa [Option.bind_eq_some_iff] using h
      exact .plus (readDigits_eq_some_iff.mp hn)
    next ds =>
      obtain ⟨n, hn, rfl⟩ : ∃ n, readDigits ds = some n ∧ -(n : Int) = i := by
        simpa [Option.bind_eq_some_iff] using h
      exact .minus (readDigits_eq_some_iff.mp hn)
    next =>
      obtain ⟨n, hn, rfl⟩ : ∃ n, readDigits cs = some n ∧ (n : Int) = i := by
        simpa [Option.bind_eq_some_iff] using h
      exact .plain (readDigits_eq_some_iff.mp hn)
  · intro h
    cases h with
    | plus hd => simp [readSigned, readDigits_eq_some_iff.mpr hd]
    | minus hd => simp [readSigned, readDigits_eq_some_iff.mpr hd]
    | plain hd =>
      have hr := readDigits_eq_some_iff.mpr hd
      unfold readSigned
      split
      · exact absurd (hd.isDigit '+' List.mem_cons_self) (by decide)
      · exact absurd (hd.isDigit '-' List.mem_cons_self) (by decide)
      · rw [hr]
        rfl

theorem readInt64_eq_some_iff {cs : List Char} {i : Int} :
    readInt64 cs = some i ↔
      Signed cs i ∧ -9223372036854775808 ≤ i ∧ i ≤ 9223372036854775807 := by
  simp [readInt64, Option.filter_eq_some_iff, readSigned_eq_some_iff]

theorem Signed.ne_nil {cs : List Char} {i : Int} (h : Signed cs i) : cs ≠ [] := by
  cases h with
  | plain hd => exact hd.ne_nil
  | plus => exact List.cons_ne_nil _ _
  | minus => exact List.cons_ne_nil _ _

theorem Signed.mem {cs : List Char} {i : Int} (h : Signed cs i) {c : Char} (hc : c ∈ cs) :
    c ≠ ':' ∧ Blank.isBlank c = false := by
  have digit {d : Char} (hd : d.isDigit) : d ≠ ':' ∧ Blank.isBlank d = false := by
    refine ⟨?_, Blank.isBlank_of_isDigit hd⟩
    rintro rfl
    exact absurd hd (by decide)
  cases h with
  | plain hd => exact digit (hd.isDigit c hc)
  | plus hd =>
    rcases List.mem_cons.mp hc with rfl | hc
    · decide
    · exact digit (hd.isDigit c hc)
  | minus hd =>
    rcases List.mem_cons.mp hc with rfl | hc
    · decide
    · exact digit (hd.isDigit c hc)

end Numeral

namespace Blank

theorem exists_dropWhile (cs : List Char) :
    ∃ lead, cs = lead ++ cs.dropWhile isBlank ∧ ∀ c ∈ lead, isBlank c := by
  refine ⟨cs.takeWhile isBlank, List.takeWhile_append_dropWhile.symm, ?_⟩
  exact List.all_eq_true.mp List.all_takeWhile

theorem exists_trim (cs : List Char) :
    ∃ lead trail, cs = lead ++ trim cs ++ trail ∧ ∀ c ∈ lead ++ trail, isBlank c := by
  obtain ⟨lead, hl, hlead⟩ := exists_dropWhile cs
  obtain ⟨trail, ht, htrail⟩ := exists_dropWhile (trimStart cs).reverse
  refine ⟨lead, trail.reverse, ?_, ?_⟩
  · have hr : trimStart cs = trim cs ++ trail.reverse := by
      rw [trim, trimEnd, ← List.reverse_append, ← ht, List.reverse_reverse]
    rw [List.append_assoc, ← hr]
    exact hl
  · intro c hc
    rcases List.mem_append.mp hc with hc | hc
    · exact hlead c hc
    · exact htrail c (List.mem_reverse.mp hc)

/-- White space around a text that has none is all that trimming takes away. -/
theorem trim_append {lead mid trail : List Char} (hb : ∀ c ∈ lead ++ trail, isBlank c)
    (hm : ∀ c ∈ mid, isBlank c = false) (hne : mid ≠ []) : trim (lead ++ mid ++ trail) = mid := by
  rw [List.forall_mem_append] at hb
  obtain ⟨c, cs, hc⟩ := List.exists_cons_of_ne_nil hne
  have hstart : trimStart (lead ++ mid ++ trail) = mid ++ trail := by
    rw [trimStart, List.append_assoc, List.dropWhile_append_of_pos hb.1, hc, List.cons_append]
    apply List.dropWhile_cons_of_neg
    simp [hm c (hc ▸ List.mem_cons_self)]
  have hend : trimEnd (mid ++ trail) = trim mid := by
    have ht : ∀ c ∈ trail.reverse, isBlank c := fun c hc => hb.2 c (List.mem_reverse.mp hc)
    have hs : trimStart mid = mid := by
      rw [trimStart, hc]
      apply List.dropWhile_cons_of_neg
      simp [hm c (hc ▸ List.mem_cons_self)]
    rw [trim, hs, trimEnd, trimEnd, List.reverse_append, List.dropWhile_append_of_pos ht]
  rw [trim, hstart, hend, trim_of_forall hm]

end Blank

namespace Marker

/-- A text up to the last colon, and behind that a numeral with white space around it, of a value
that a signed 64-bit word holds. -/
def Spells (piece text : List Char) (ticks : Int) : Prop :=
  ∃ behind, piece = text ++ ':' :: behind ∧ ':' ∉ behind ∧
    (∃ lead numeral trail, behind = lead ++ numeral ++ trail ∧
      (∀ c ∈ lead ++ trail, Blank.isBlank c) ∧ Numeral.Signed numeral ticks) ∧
    -9223372036854775808 ≤ ticks ∧ ticks ≤ 9223372036854775807

def WellFormed (piece : List Char) : Prop := ∃ text ticks, Spells piece text ticks

/-- The piece spells the text of the marker and its ticks, of which there are none below zero. -/
def Denotes (piece : List Char) (m : Marker) : Prop :=
  ∃ ticks, Spells piece m.text.toList ticks ∧
    m.offset = ⟨(max ticks 0).toNat * Offset.nanosPerTick⟩

theorem spells_iff {piece text : List Char} {ticks : Int} :
    Spells piece text ticks ↔
      ∃ behind, Split.atLast ':' piece = some (text, behind) ∧
        Numeral.readInt64 (Blank.trim behind) = some ticks := by
  constructor
  · rintro ⟨behind, rfl, hcolon, ⟨lead, numeral, trail, hb, hblank, hs⟩, hrange⟩
    have htrim : Blank.trim behind = numeral := by
      rw [hb]
      exact Blank.trim_append hblank (fun c hc => (hs.mem hc).2) hs.ne_nil
    refine ⟨behind, Split.atLast_append hcolon text, ?_⟩
    rw [htrim]
    exact Numeral.readInt64_eq_some_iff.mpr ⟨hs, hrange⟩
  · rintro ⟨behind, hcut, hread⟩
    obtain ⟨hs, hrange⟩ := Numeral.readInt64_eq_some_iff.mp hread
    obtain ⟨lead, trail, hb, hblank⟩ := Blank.exists_trim behind
    refine ⟨behind, Split.atLast_eq_some hcut, ?_, ⟨lead, _, trail, hb, hblank, hs⟩, hrange⟩
    intro hcolon
    rw [hb, List.mem_append, List.mem_append] at hcolon
    have hnone : Blank.isBlank ':' = false := by decide
    rcases hcolon with (hc | hc) | hc
    · exact absurd (hblank ':' (List.mem_append_left _ hc)) (by simp [hnone])
    · exact (hs.mem hc).1 rfl
    · exact absurd (hblank ':' (List.mem_append_right _ hc)) (by simp [hnone])

theorem read?_eq_some_iff {piece : List Char} {m : Marker} :
    read? piece = some m ↔ Denotes piece m := by
  constructor
  · intro h
    obtain ⟨⟨text, behind⟩, hcut, h⟩ := Option.bind_eq_some_iff.mp h
    obtain ⟨ticks, hread, h⟩ := Option.bind_eq_some_iff.mp h
    obtain rfl := Option.some.inj h
    refine ⟨ticks, ?_, ?_⟩
    · rw [ofTicks, String.toList_ofList]
      exact spells_iff.mpr ⟨behind, hcut, hread⟩
    · have hmax : (max ticks 0).toNat = ticks.toNat := by omega
      rw [hmax]
      rfl
  · rintro ⟨ticks, hs, ho⟩
    obtain ⟨behind, hcut, hread⟩ := spells_iff.mp hs
    have hmax : (max ticks 0).toNat = ticks.toNat := by omega
    rw [hmax] at ho
    have hm : ofTicks m.text ticks = m := by
      rw [ofTicks, Offset.ofTicks, ← ho]
    simp [read?, hcut, hread, hm]

theorem wellFormed_iff {piece : List Char} : WellFormed piece ↔ ∃ m, Denotes piece m := by
  constructor
  · rintro ⟨text, ticks, h⟩
    refine ⟨ofTicks (String.ofList text) (max ticks 0), ticks, ?_, rfl⟩
    rwa [ofTicks, String.toList_ofList]
  · rintro ⟨m, ticks, h, _⟩
    exact ⟨_, ticks, h⟩

theorem read_eq_error_iff {piece : List Char} {e : Error} :
    read piece = .error e ↔ ¬ WellFormed piece ∧ e = .malformedMarker (String.ofList piece) := by
  simp only [wellFormed_iff, ← read?_eq_some_iff]
  unfold read
  cases h : read? piece with
  | some m => simp
  | none => simp [eq_comm]

end Marker

namespace Markers

open Marker (Denotes WellFormed)

theorem readPieces_eq_ok_iff_forall₂ {pieces : List (List Char)} {ms : List Marker} :
    readPieces pieces = .ok ms ↔ List.Forall₂ Denotes pieces ms := by
  rw [readPieces_eq_ok_iff]
  induction pieces generalizing ms with
  | nil => cases ms <;> simp
  | cons piece pieces ih =>
    cases ms with
    | nil => simp
    | cons m ms => simp [Marker.read?_eq_some_iff, ih]

theorem exists_forall₂_iff {pieces : List (List Char)} :
    (∃ ms, List.Forall₂ Denotes pieces ms) ↔ ∀ p ∈ pieces, WellFormed p := by
  induction pieces with
  | nil => simp
  | cons piece pieces ih =>
    rw [List.forall_mem_cons, ← ih, Marker.wellFormed_iff]
    constructor
    · rintro ⟨ms, h⟩
      cases h with
      | cons hm hms => exact ⟨⟨_, hm⟩, _, hms⟩
    · rintro ⟨⟨m, hm⟩, ms, hms⟩
      exact ⟨m :: ms, .cons hm hms⟩

theorem readPieces_eq_error_iff {pieces : List (List Char)} {e : Error} :
    readPieces pieces = .error e ↔
      ∃ before piece after, pieces = before ++ piece :: after ∧
        (∀ p ∈ before, WellFormed p) ∧ ¬ WellFormed piece ∧
        e = .malformedMarker (String.ofList piece) := by
  induction pieces with
  | nil => simp [readPieces]
  | cons first pieces ih =>
    cases hr : Marker.read first with
    | error f =>
      obtain ⟨hw, rfl⟩ := Marker.read_eq_error_iff.mp hr
      rw [readPieces, hr]
      constructor
      · intro h
        exact ⟨[], first, pieces, rfl, by simp, hw, (Except.error.inj h).symm⟩
      · rintro ⟨before, piece, after, hp, hb, _, rfl⟩
        cases before with
        | nil => rw [(List.cons.inj hp).1]
        | cons p before =>
          obtain rfl := (List.cons.inj hp).1
          exact absurd (hb _ List.mem_cons_self) hw
    | ok m =>
      have hw : WellFormed first := by
        apply Marker.wellFormed_iff.mpr
        exact ⟨m, Marker.read?_eq_some_iff.mp (Marker.read_eq_ok_iff.mp hr)⟩
      have hlater : readPieces (first :: pieces) = .error e ↔ readPieces pieces = .error e := by
        rw [readPieces, hr]
        cases readPieces pieces <;> simp
      refine hlater.trans (ih.trans ?_)
      constructor
      · rintro ⟨before, piece, after, rfl, hb, hn⟩
        exact ⟨first :: before, piece, after, rfl, List.forall_mem_cons.mpr ⟨hw, hb⟩, hn⟩
      · rintro ⟨before, piece, after, hp, hb, hn⟩
        cases before with
        | nil =>
          obtain rfl := (List.cons.inj hp).1
          exact absurd hw hn.1
        | cons p before =>
          exact ⟨before, piece, after, (List.cons.inj hp).2, (List.forall_mem_cons.mp hb).2, hn⟩

/-- A text is read exactly if it is empty or all its pieces between bars are well-formed, as one
marker for each piece in their order. Else the error names the first piece that is not, as it is. -/
theorem ofWire_by_grammar (s : String) :
    ∃ pieces, pieces ≠ [] ∧ (∀ p ∈ pieces, '|' ∉ p) ∧ ['|'].intercalate pieces = s.toList ∧
      ((∃ ms, ofWire s = .ok ms) ↔ s = "" ∨ ∀ p ∈ pieces, WellFormed p) ∧
      (∀ ms, ofWire s = .ok ms ↔
        (s = "" ∧ ms = []) ∨ (s ≠ "" ∧ List.Forall₂ Denotes pieces ms)) ∧
      ∀ e, ofWire s = .error e ↔
        s ≠ "" ∧ ∃ before piece after, pieces = before ++ piece :: after ∧
          (∀ p ∈ before, WellFormed p) ∧ ¬ WellFormed piece ∧
          e = .malformedMarker (String.ofList piece) := by
  have hempty : s.toList = [] ↔ s = "" := String.toList_eq_nil_iff
  have hok (ms : List Marker) : ofWire s = .ok ms ↔
      (s = "" ∧ ms = []) ∨ (s ≠ "" ∧ List.Forall₂ Denotes (s.toList.splitOn '|') ms) := by
    rw [ofWire, read, ← readPieces_eq_ok_iff_forall₂]
    by_cases hs : s = ""
    · simp [hs, eq_comm]
    · simp [hempty, hs]
  refine ⟨s.toList.splitOn '|', List.splitOn_ne_nil _ _, ?_, List.intercalate_splitOn _, ?_, hok,
    ?_⟩
  · intro p hp
    exact Split.notMem_of_mem_splitOn hp
  · simp only [hok, ← exists_forall₂_iff]
    by_cases hs : s = "" <;> simp [hs]
  · intro e
    rw [ofWire, read, ← readPieces_eq_error_iff]
    by_cases hs : s = ""
    · simp [hs]
    · simp [hempty, hs]

example : ofWire "a:b:\u2003+007 |:-5" = .ok [⟨"a:b", ⟨700⟩⟩, ⟨"", ⟨0⟩⟩] := by decide +kernel
example : ofWire "a:1|b: 2:x |c" = .error (.malformedMarker "b: 2:x ") := by decide +kernel

end Markers

end SpeechBridge

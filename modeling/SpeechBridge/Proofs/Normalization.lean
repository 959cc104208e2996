import SpeechBridge.Proofs.Grammar

/-!
# The normal form of a wire form

What is read and written again keeps its texts, and each value is written with the one numeral that
has no sign, no white space and no zero in front. Main statement: the normal form is read as the
same list, so writing it again leaves it as it is.
-/
namespace SpeechBridge

namespace Numeral

/-- Digits of which the first is no zero, unless it is the only one. -/
structure Canonical (ds : List Char) (n : Nat) : Prop where
  digits : Digits ds n
  leading : ds.head? = some '0' → ds = ['0']

theorem head?_write {n : Nat} (h : (write n).head? = some '0') : write n = ['0'] := by
  induction n using Nat.strongRecOn with
  | ind n ih =>
    rw [write] at h ⊢
    by_cases hn : n < 10
    · rw [Nat.toDigits_of_lt_base hn] at h ⊢
      rw [Option.some.inj h]
    · rw [Nat.toDigits_of_base_le (by decide) (by omega),
        List.head?_append_of_ne_nil _ Nat.toDigits_ne_nil] at h
      -- The digits in front would be those of zero, but they stand for a tenth of the number.
      have hzero : write (n / 10) = write 0 := ih (n / 10) (by omega) h
      have htenth := (readDigits_write (n / 10)).symm.trans (hzero ▸ readDigits_write 0)
      have := Option.some.inj htenth
      omega

theorem canonical_write (n : Nat) : Canonical (write n) n :=
  ⟨readDigits_eq_some_iff.mp (readDigits_write n), head?_write⟩

theorem digitChar_of_isDigit {d : Char} (h : d.isDigit) :
    d.toNat - 48 < 10 ∧ (d.toNat - 48).digitChar = d := by
  rw [Char.isDigit, Bool.and_eq_true, decide_eq_true_eq, decide_eq_true_eq] at h
  have hlow : 48 ≤ d.toNat := UInt32.le_iff_toNat_le.mp h.1
  have hhigh : d.toNat ≤ 57 := UInt32.le_iff_toNat_le.mp h.2
  refine ⟨by omega, Char.toNat_inj.mp ?_⟩
  rw [Nat.toNat_digitChar_of_lt_ten (by omega)]
  omega

theorem Canonical.eq_write {ds : List Char} {n : Nat} (h : Canonical ds n) : ds = write n := by
  obtain ⟨hd, hl⟩ := h
  induction hd with
  | first d hd =>
    obtain ⟨hlt, hc⟩ := digitChar_of_isDigit hd
    rw [write, Nat.toDigits_of_lt_base hlt, hc]
  | @next ds n d hds hd ih =>
    obtain ⟨hlt, hc⟩ := digitChar_of_isDigit hd
    have hhead : ds.head? ≠ some '0' := by
      intro hz
      have hone := hl (by rw [List.head?_append_of_ne_nil _ hds.ne_nil, hz])
      exact hds.ne_nil (List.append_eq_singleton_iff.mp hone |>.resolve_right (by simp)).1
    have hw : ds = write n := ih fun hz => absurd hz hhead
    have hpos : 0 < n := by
      apply Nat.pos_of_ne_zero
      rintro rfl
      rw [hw] at hhead
      exact hhead rfl
    have happ := Nat.toDigits_append_toDigits (b := 10) (by decide) hpos hlt
    rw [Nat.toDigits_of_lt_base hlt, hc] at happ
    rw [hw, write, write, happ]

end Numeral

namespace Marker

/-- Behind the last colon of a piece, the canonical numeral of its value stands in place of what
was there; for a value below zero it is that of zero. -/
def Normalizes (piece normal : List Char) : Prop :=
  ∃ text ticks numeral, Spells piece text ticks ∧
    Numeral.Canonical numeral (max ticks 0).toNat ∧ normal = text ++ ':' :: numeral

theorem Denotes.ticks {piece : List Char} {m : Marker} (h : Denotes piece m) :
    ∃ ticks, Spells piece m.text.toList ticks ∧ m.ticks = (max ticks 0).toNat := by
  obtain ⟨ticks, hs, ho⟩ := h
  obtain ⟨_, _, _, _, _, hle⟩ := id hs
  refine ⟨ticks, hs, ?_⟩
  simp only [Marker.ticks, Offset.ticks, ho, Offset.nanosPerTick, wordSize]
  omega

theorem Spells.unique {piece text text' : List Char} {ticks ticks' : Int}
    (h : Spells piece text ticks) (h' : Spells piece text' ticks') :
    text = text' ∧ ticks = ticks' := by
  obtain ⟨behind, hcut, hread⟩ := spells_iff.mp h
  obtain ⟨behind', hcut', hread'⟩ := spells_iff.mp h'
  obtain ⟨rfl, rfl⟩ := Prod.mk.inj (Option.some.inj (hcut.symm.trans hcut'))
  exact ⟨rfl, Option.some.inj (hread.symm.trans hread')⟩

/-- A marker is written as the normal form of each piece that it is read from. -/
theorem Denotes.normalizes_iff {piece normal : List Char} {m : Marker} (h : Denotes piece m) :
    Normalizes piece normal ↔ normal = m.write := by
  obtain ⟨ticks, hs, ht⟩ := h.ticks
  constructor
  · rintro ⟨text, ticks', numeral, hs', hc, rfl⟩
    obtain ⟨rfl, rfl⟩ := hs.unique hs'
    rw [hc.eq_write, write, ht]
  · rintro rfl
    refine ⟨m.text.toList, ticks, Numeral.write m.ticks, hs, ?_, rfl⟩
    rw [ht]
    exact Numeral.canonical_write _

theorem Denotes.read?_write {piece : List Char} {m : Marker} (h : Denotes piece m) :
    read? m.write = some m := by
  obtain ⟨ticks, ⟨_, _, _, _, _, hle⟩, ho⟩ := h
  exact m.read?_write_iff.mpr ⟨(max ticks 0).toNat, by omega, ho⟩

end Marker

namespace Markers

open Marker (Denotes WellFormed)

def Normalizes (s normal : String) : Prop :=
  ∃ pieces normals, (∀ p ∈ pieces, '|' ∉ p) ∧ ['|'].intercalate pieces = s.toList ∧
    List.Forall₂ Marker.Normalizes pieces normals ∧ ['|'].intercalate normals = normal.toList

def recode (s : String) : Except Error String := (ofWire s).map toWire

def recodeTimes : Nat → String → Except Error String
  | 0, s => .ok s
  | n + 1, s => (recode s).bind (recodeTimes n)

theorem ofWire_eq_ok_iff {s : String} {ms : List Marker} :
    ofWire s = .ok ms ↔
      ∃ pieces, (∀ p ∈ pieces, '|' ∉ p) ∧ ['|'].intercalate pieces = s.toList ∧
        List.Forall₂ Denotes pieces ms := by
  rw [ofWire, read]
  constructor
  · intro h
    split at h
    next hs =>
      obtain rfl := Except.ok.inj h
      exact ⟨[], by simp, hs.symm, .nil⟩
    next =>
      refine ⟨s.toList.splitOn '|', ?_, List.intercalate_splitOn _, ?_⟩
      · intro p hp
        exact Split.notMem_of_mem_splitOn hp
      · exact readPieces_eq_ok_iff_forall₂.mp h
  · rintro ⟨pieces, hbar, hs, hd⟩
    cases hd with
    | nil => exact if_pos hs.symm
    | @cons piece m pieces ms hm hms =>
      have hsplit : s.toList.splitOn '|' = piece :: pieces := by
        rw [← hs]
        exact List.splitOn_intercalate _ hbar (List.cons_ne_nil _ _)
      have hne : s.toList ≠ [] := by
        intro hnil
        rw [hnil, List.splitOn_nil] at hsplit
        obtain ⟨rfl, _⟩ := List.cons.inj hsplit
        obtain ⟨_, ⟨_, hcolon, _⟩, _⟩ := hm
        simp at hcolon
      rw [if_neg hne, hsplit]
      exact readPieces_eq_ok_iff_forall₂.mpr (.cons hm hms)

theorem forall₂_normalizes_iff {pieces normals : List (List Char)} {ms : List Marker}
    (h : List.Forall₂ Denotes pieces ms) :
    List.Forall₂ Marker.Normalizes pieces normals ↔ normals = ms.map Marker.write := by
  induction h generalizing normals with
  | nil => simp
  | cons hm _ ih => cases normals <;> simp [hm.normalizes_iff, ih]

theorem normalizes_iff {s normal : String} {ms : List Marker} (h : ofWire s = .ok ms) :
    Normalizes s normal ↔ normal = toWire ms := by
  constructor
  · rintro ⟨pieces, normals, hbar, hs, hn, hnormal⟩
    have hw : List.Forall₂ (fun p n => WellFormed p ∧ Marker.Normalizes p n) pieces normals := by
      refine hn.imp fun p n hpn => ⟨?_, hpn⟩
      obtain ⟨text, ticks, _, hspells, _⟩ := hpn
      exact ⟨text, ticks, hspells⟩
    obtain ⟨ms', hd⟩ := exists_forall₂_iff.mpr ((List.forall₂_and_left _ _).mp hw).1
    have hms := ofWire_eq_ok_iff.mpr ⟨pieces, hbar, hs, hd⟩
    obtain rfl := Except.ok.inj (h.symm.trans hms)
    apply String.toList_injective
    rw [← hnormal, (forall₂_normalizes_iff hd).mp hn, toWire, String.toList_ofList, write]
  · rintro rfl
    obtain ⟨pieces, hbar, hs, hd⟩ := ofWire_eq_ok_iff.mp h
    refine ⟨pieces, ms.map Marker.write, hbar, hs, (forall₂_normalizes_iff hd).mpr rfl, ?_⟩
    rw [toWire, String.toList_ofList, write]

theorem read?_write_of_forall₂ {pieces : List (List Char)} {ms : List Marker}
    (h : List.Forall₂ Denotes pieces ms) : ∀ m ∈ ms, Marker.read? m.write = some m := by
  induction h with
  | nil => simp
  | cons hm _ ih => exact List.forall_mem_cons.mpr ⟨hm.read?_write, ih⟩

theorem ofWire_toWire_of_ofWire {s : String} {ms : List Marker} (h : ofWire s = .ok ms) :
    ofWire (toWire ms) = .ok ms := by
  obtain ⟨pieces, _, _, hd⟩ := ofWire_eq_ok_iff.mp h
  rw [ofWire, toWire, String.toList_ofList, read_write_iff_of_no_bar (notMem_of_read h)]
  exact read?_write_of_forall₂ hd

theorem recodeTimes_of_ofWire {s : String} {ms : List Marker} (h : ofWire s = .ok ms) (n : Nat) :
    recodeTimes (n + 1) s = .ok (toWire ms) := by
  induction n generalizing s with
  | zero => simp [recodeTimes, recode, h, Except.map, Except.bind]
  | succ n ih =>
    rw [recodeTimes, recode, h]
    exact ih (ofWire_toWire_of_ofWire h)

/-- A list is written in the normal form of any text that it is read from. The normal form is read
as the same list, and it stays as it is however often it is read and written again. -/
theorem rewritten_in_normal_form {s : String} {ms : List Marker} (h : ofWire s = .ok ms) :
    (∀ normal, Normalizes s normal ↔ normal = toWire ms) ∧
    ofWire (toWire ms) = .ok ms ∧
    ∀ n, recodeTimes (n + 1) s = .ok (toWire ms) :=
  ⟨fun _ => normalizes_iff h, ofWire_toWire_of_ofWire h, recodeTimes_of_ofWire h⟩

/-- A text with a colon in it and a padded numeral, and an empty text with a value below zero. -/
def padded : String := "a:b:\u2003+007 |:-5"

def unpadded : List Marker := [⟨"a:b", ⟨700⟩⟩, ⟨"", ⟨0⟩⟩]

theorem padded_in_normal_form :
    ofWire padded = .ok unpadded ∧ toWire unpadded = "a:b:7|:0" ∧
    (∀ normal, Normalizes padded normal ↔ normal = toWire unpadded) ∧
    ofWire (toWire unpadded) = .ok unpadded ∧
    ∀ n, recodeTimes (n + 1) padded = .ok (toWire unpadded) :=
  have h : ofWire padded = .ok unpadded := by decide +kernel
  ⟨h, by decide +kernel, rewritten_in_normal_form h⟩

end Markers

end SpeechBridge

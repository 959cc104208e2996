import SpeechBridge.Text.Utf16

/-!
# Surrogates

A sequence of units is a row of pieces, each a character or a surrogate whose other half is not next
to it. Decoding reads the pieces one by one. Main statement: a text comes back from its units up to
the first zero, and units come back from their text exactly if no surrogate is on its own.
-/
namespace SpeechBridge.Utf16

theorem toNat_ofNat {n : Nat} (h : n.isValidChar) : (Char.ofNat n).toNat = n := by
  rw [Char.ofNat, dif_pos h]
  rfl

theorem encodeChar_of_lt {c : Char} (h : c.toNat < 0x10000) :
    ∃ u, encodeChar c = [u] ∧ u.toNat = c.toNat ∧ isHigh u = false ∧ isLow u = false := by
  have hc : c.toNat < 0xD800 ∨ (0xDFFF < c.toNat ∧ c.toNat < 0x110000) := c.valid
  have hu : c.toNat.toUInt16.toNat = c.toNat := by
    simp
    omega
  refine ⟨c.toNat.toUInt16, if_pos h, hu, ?_, ?_⟩
  · rw [isHigh, hu]
    simp
    omega
  · rw [isLow, hu]
    simp
    omega

theorem encodeChar_of_le {c : Char} (h : 0x10000 ≤ c.toNat) :
    ∃ u v, encodeChar c = [u, v] ∧ isHigh u = true ∧ isLow v = true ∧ pair u v = c := by
  have hc : c.toNat < 0xD800 ∨ (0xDFFF < c.toNat ∧ c.toNat < 0x110000) := c.valid
  have hu : (0xD800 + (c.toNat - 0x10000) / 0x400).toUInt16.toNat =
      0xD800 + (c.toNat - 0x10000) / 0x400 := by
    simp
    omega
  have hv : (0xDC00 + (c.toNat - 0x10000) % 0x400).toUInt16.toNat =
      0xDC00 + (c.toNat - 0x10000) % 0x400 := by
    simp
    omega
  refine ⟨_, _, if_neg (by omega), ?_, ?_, ?_⟩
  · rw [isHigh, hu]
    simp
    omega
  · rw [isLow, hv]
    simp
    omega
  · have hn : 0x10000 + (0xD800 + (c.toNat - 0x10000) / 0x400 - 0xD800) * 0x400 +
        (0xDC00 + (c.toNat - 0x10000) % 0x400 - 0xDC00) = c.toNat := by
      omega
    rw [pair, hu, hv, hn]
    exact Char.ofNat_toNat c

theorem encodeChar_pair {u v : UInt16} (hu : isHigh u = true) (hv : isLow v = true) :
    encodeChar (pair u v) = [u, v] := by
  simp only [isHigh, isLow, Bool.and_eq_true, decide_eq_true_eq] at hu hv
  have hn : (pair u v).toNat =
      0x10000 + (u.toNat - 0xD800) * 0x400 + (v.toNat - 0xDC00) := by
    rw [pair, toNat_ofNat (.inr ⟨by omega, by omega⟩)]
  have hhigh : (0xD800 + ((pair u v).toNat - 0x10000) / 0x400).toUInt16 = u := by
    apply UInt16.toNat_inj.mp
    rw [hn]
    simp
    omega
  have hlow : (0xDC00 + ((pair u v).toNat - 0x10000) % 0x400).toUInt16 = v := by
    apply UInt16.toNat_inj.mp
    rw [hn]
    simp
    omega
  rw [encodeChar, if_neg (by omega), hhigh, hlow]

theorem encodeChar_ofNat {u : UInt16} (hu : isHigh u = false) (hv : isLow u = false) :
    encodeChar (Char.ofNat u.toNat) = [u] := by
  simp only [isHigh, isLow, Bool.and_eq_false_iff, decide_eq_false_iff_not] at hu hv
  have hlt := u.toNat_lt
  have hn : (Char.ofNat u.toNat).toNat = u.toNat := by
    apply toNat_ofNat
    show _ ∨ _
    omega
  rw [encodeChar, if_pos (by omega), hn]
  congr 1
  apply UInt16.toNat_inj.mp
  simp

theorem isLow_of_isHigh {u : UInt16} (h : isHigh u = true) : isLow u = false := by
  simp only [isHigh, isLow, Bool.and_eq_true, decide_eq_true_eq, Bool.and_eq_false_iff,
    decide_eq_false_iff_not] at *
  omega

theorem isHigh_of_isLow {u : UInt16} (h : isLow u = true) : isHigh u = false := by
  simp only [isHigh, isLow, Bool.and_eq_true, decide_eq_true_eq, Bool.and_eq_false_iff,
    decide_eq_false_iff_not] at *
  omega

/-- A character, or a surrogate on its own. -/
inductive Piece where
  | scalar (c : Char)
  | lone (u : UInt16)
  deriving DecidableEq, Repr

namespace Piece

def units : Piece → List UInt16
  | scalar c => encodeChar c
  | lone u => [u]

def char : Piece → Char
  | scalar c => c
  | lone _ => replacement

def ofUnit (u : UInt16) : Piece :=
  if isHigh u || isLow u then lone u else scalar (Char.ofNat u.toNat)

theorem units_ofUnit (u : UInt16) : (ofUnit u).units = [u] := by
  rw [ofUnit]
  split
  · rfl
  next h =>
    rw [Bool.or_eq_true, not_or, Bool.not_eq_true, Bool.not_eq_true] at h
    exact encodeChar_ofNat h.1 h.2

theorem char_ofUnit (u : UInt16) : (ofUnit u).char = single u := by
  rw [ofUnit, single]
  split <;> rfl

theorem units_ne_nil (p : Piece) : p.units ≠ [] := by
  cases p with
  | lone u => exact List.cons_ne_nil _ _
  | scalar c =>
    rw [units, encodeChar]
    split <;> exact List.cons_ne_nil _ _

end Piece

def pieces : List UInt16 → List Piece
  | [] => []
  | [u] => [.ofUnit u]
  | u :: v :: us =>
    if isHigh u && isLow v then .scalar (pair u v) :: pieces us else .ofUnit u :: pieces (v :: us)

theorem units_pieces (us : List UInt16) : (pieces us).flatMap Piece.units = us := by
  fun_induction pieces us with
  | case1 => rfl
  | case2 u => simp [Piece.units_ofUnit]
  | case3 u v us h ih =>
    rw [Bool.and_eq_true] at h
    rw [List.flatMap_cons, ih, Piece.units, encodeChar_pair h.1 h.2]
    rfl
  | case4 u v us h ih =>
    rw [List.flatMap_cons, ih, Piece.units_ofUnit]
    rfl

theorem decode_eq_map_pieces (us : List UInt16) : decode us = (pieces us).map Piece.char := by
  fun_induction pieces us with
  | case1 => rfl
  | case2 u => simp [decode, Piece.char_ofUnit]
  | case3 u v us h ih =>
    rw [decode, if_pos h, ih]
    rfl
  | case4 u v us h ih => rw [decode, if_neg h, ih, List.map_cons, Piece.char_ofUnit]

theorem pieces_encodeChar_append (c : Char) (us : List UInt16) :
    pieces (encodeChar c ++ us) = .scalar c :: pieces us := by
  by_cases hc : c.toNat < 0x10000
  · obtain ⟨u, henc, hnat, hhigh, hlow⟩ := encodeChar_of_lt hc
    have hpiece : Piece.ofUnit u = .scalar c := by
      simp [Piece.ofUnit, hhigh, hlow, hnat]
    rw [henc]
    cases us with
    | nil => simp [pieces, hpiece]
    | cons v us => simp [pieces, hpiece, hhigh]
  · obtain ⟨u, v, henc, hhigh, hlow, hpair⟩ := encodeChar_of_le (Nat.le_of_not_lt hc)
    rw [henc]
    simp [pieces, hhigh, hlow, hpair]

theorem decode_encode (cs : List Char) : decode (encode cs) = cs := by
  have hpieces : pieces (encode cs) = cs.map Piece.scalar := by
    induction cs with
    | nil => rfl
    | cons c cs ih =>
      rw [encode, List.flatMap_cons, pieces_encodeChar_append, ← encode, ih, List.map]
  rw [decode_eq_map_pieces, hpieces, List.map_map]
  exact List.map_id cs

theorem ne_zero_of_mem_encodeChar {c : Char} (hc : c ≠ '\x00') {u : UInt16}
    (hu : u ∈ encodeChar c) : u ≠ 0 := by
  rintro rfl
  by_cases hlt : c.toNat < 0x10000
  · obtain ⟨v, henc, hnat, -, -⟩ := encodeChar_of_lt hlt
    rw [henc, List.mem_singleton] at hu
    rw [← hu] at hnat
    exact hc (Char.toNat_inj.mp hnat.symm)
  · obtain ⟨v, w, henc, hhigh, hlow, -⟩ := encodeChar_of_le (Nat.le_of_not_lt hlt)
    rw [henc, List.mem_cons, List.mem_singleton] at hu
    rcases hu with rfl | rfl
    · exact absurd hhigh (by decide)
    · exact absurd hlow (by decide)

def beforeZero (us : List UInt16) : List UInt16 := us.takeWhile (· != 0)

theorem beforeZero_encode (cs : List Char) (rest : List UInt16) :
    beforeZero (encode cs ++ 0 :: rest) = encode (cs.takeWhile (· != '\x00')) := by
  induction cs with
  | nil => rfl
  | cons c cs ih =>
    rw [beforeZero] at ih ⊢
    rw [encode, List.flatMap_cons, ← encode, List.append_assoc]
    by_cases hc : c = '\x00'
    · subst hc
      rfl
    · have hunits : ∀ u ∈ encodeChar c, (u != 0) = true := fun u hu => by
        simpa using ne_zero_of_mem_encodeChar hc hu
      rw [List.takeWhile_append_of_pos hunits, ih, List.takeWhile_cons_of_pos (by simpa using hc),
        encode, encode, List.flatMap_cons]

/-- A surrogate whose other half is not next to it. -/
def Unpaired (before : List UInt16) (u : UInt16) (after : List UInt16) : Prop :=
  (isHigh u = true ∧ ∀ v ∈ after.head?, isLow v = false) ∨
    (isLow u = true ∧ ∀ v ∈ before.getLast?, isHigh v = false)

/-- Behind the given units stands the given one, an unpaired surrogate. -/
def UnpairedAt (us before : List UInt16) (u : UInt16) : Prop :=
  ∃ after, us = before ++ u :: after ∧ Unpaired before u after

/-- Behind the given units the row has the given one as a piece of its own. -/
def LoneAt (ps : List Piece) (before : List UInt16) (u : UInt16) : Prop :=
  ∃ ps₁ ps₂, ps = ps₁ ++ .lone u :: ps₂ ∧ ps₁.flatMap Piece.units = before

theorem loneAt_cons_iff {p : Piece} {ps : List Piece} {before : List UInt16} {u : UInt16} :
    LoneAt (p :: ps) before u ↔
      (before = [] ∧ p = .lone u) ∨ ∃ rest, before = p.units ++ rest ∧ LoneAt ps rest u := by
  constructor
  · rintro ⟨ps₁, ps₂, hps, rfl⟩
    cases ps₁ with
    | nil => exact .inl ⟨rfl, (List.cons.inj hps).1⟩
    | cons q ps₁ =>
      obtain ⟨rfl, rfl⟩ := List.cons.inj hps
      exact .inr ⟨_, List.flatMap_cons, ps₁, ps₂, rfl, rfl⟩
  · rintro (⟨rfl, rfl⟩ | ⟨rest, rfl, ps₁, ps₂, rfl, rfl⟩)
    · exact ⟨[], ps, rfl, rfl⟩
    · exact ⟨p :: ps₁, ps₂, rfl, List.flatMap_cons⟩

theorem loneAt_nil_iff {p : Piece} {ps : List Piece} {u : UInt16} :
    LoneAt (p :: ps) [] u ↔ p = .lone u := by
  rw [loneAt_cons_iff]
  constructor
  · rintro (⟨-, hp⟩ | ⟨rest, hrest, -⟩)
    · exact hp
    · exact absurd (List.append_eq_nil_iff.mp hrest.symm).1 p.units_ne_nil
  · exact fun hp => .inl ⟨rfl, hp⟩

theorem loneAt_append_iff {p : Piece} {ps : List Piece} {before : List UInt16} {u : UInt16} :
    LoneAt (p :: ps) (p.units ++ before) u ↔ LoneAt ps before u := by
  rw [loneAt_cons_iff]
  constructor
  · rintro (⟨hnil, -⟩ | ⟨rest, hrest, hlone⟩)
    · exact absurd (List.append_eq_nil_iff.mp hnil).1 p.units_ne_nil
    · exact List.append_cancel_left hrest ▸ hlone
  · exact fun hlone => .inr ⟨before, rfl, hlone⟩

/-- A unit that makes no pair with its neighbours is unpaired exactly if it is a surrogate. -/
theorem unpaired_iff_ofUnit {earlier after : List UInt16} {u : UInt16}
    (hprev : ∀ p ∈ earlier.getLast?, isHigh p = true → isLow u = false)
    (hnext : ∀ v ∈ after.head?, isHigh u = true → isLow v = false) :
    Unpaired earlier u after ↔ Piece.ofUnit u = .lone u := by
  have hlone : Piece.ofUnit u = .lone u ↔ (isHigh u || isLow u) = true := by
    rw [Piece.ofUnit]
    split
    next h => exact iff_of_true rfl h
    next h => exact iff_of_false Piece.noConfusion h
  rw [hlone, Bool.or_eq_true]
  constructor
  · exact Or.imp And.left And.left
  · rintro (hu | hu)
    · exact .inl ⟨hu, fun v hv => hnext v hv hu⟩
    · refine .inr ⟨hu, fun p hp => ?_⟩
      cases hhigh : isHigh p with
      | false => rfl
      | true => exact absurd hu (by simp [hprev p hp hhigh])

/-- Where no pair is cut in half in front, the pieces on their own are the unpaired surrogates. -/
theorem unpaired_append_iff_loneAt (earlier : List UInt16) {us before after : List UInt16}
    {u : UInt16}
    (hcut : ∀ p ∈ earlier.getLast?, isHigh p = true → ∀ v ∈ us.head?, isLow v = false)
    (hus : us = before ++ u :: after) :
    Unpaired (earlier ++ before) u after ↔ LoneAt (pieces us) before u := by
  fun_induction pieces us generalizing earlier before with
  | case1 => simp at hus
  | case2 x =>
    obtain ⟨rfl, rfl, rfl⟩ : before = [] ∧ u = x ∧ after = [] := by
      cases before <;> simp_all
    rw [loneAt_nil_iff, List.append_nil]
    apply unpaired_iff_ofUnit
    · exact fun p hp hhigh => hcut p hp hhigh u rfl
    · simp
  | case3 x y us h ih =>
    rw [Bool.and_eq_true] at h
    have hunits : (Piece.scalar (pair x y)).units = [x, y] := encodeChar_pair h.1 h.2
    rcases before with _ | ⟨b, _ | ⟨c, before⟩⟩
    · obtain ⟨rfl, rfl⟩ := List.cons.inj hus
      rw [loneAt_nil_iff]
      refine iff_of_false ?_ Piece.noConfusion
      simp [Unpaired, h.2, isLow_of_isHigh h.1]
    · obtain ⟨rfl, htail⟩ := List.cons.inj hus
      obtain ⟨rfl, rfl⟩ := List.cons.inj htail
      refine iff_of_false ?_ ?_
      · simp [Unpaired, h.1, isHigh_of_isLow h.2]
      · rw [loneAt_cons_iff, hunits]
        simp
    · obtain ⟨rfl, htail⟩ := List.cons.inj hus
      obtain ⟨rfl, hrest⟩ := List.cons.inj htail
      have hstep := ih (earlier ++ [x, y]) (by simp [isHigh_of_isLow h.2]) hrest
      rw [← loneAt_append_iff (p := .scalar (pair x y)), hunits] at hstep
      simpa using hstep
  | case4 x y us h ih =>
    cases before with
    | nil =>
      obtain ⟨rfl, rfl⟩ := List.cons.inj hus
      rw [loneAt_nil_iff, List.append_nil]
      apply unpaired_iff_ofUnit
      · exact fun p hp hhigh => hcut p hp hhigh _ rfl
      · simpa using h
    | cons b before =>
      obtain ⟨rfl, htail⟩ := List.cons.inj hus
      have hstep := ih (earlier ++ [x]) (by simpa using h) htail
      rw [← loneAt_append_iff (p := .ofUnit x), Piece.units_ofUnit] at hstep
      simpa using hstep

theorem unpairedAt_iff_loneAt (us before : List UInt16) (u : UInt16) :
    UnpairedAt us before u ↔ LoneAt (pieces us) before u := by
  have hplace : ∀ {after}, us = before ++ u :: after →
      (Unpaired before u after ↔ LoneAt (pieces us) before u) :=
    unpaired_append_iff_loneAt [] (by simp)
  constructor
  · rintro ⟨after, hus, hunpaired⟩
    exact (hplace hus).mp hunpaired
  · rintro ⟨ps₁, ps₂, hps, hbefore⟩
    have hus : us = before ++ u :: ps₂.flatMap Piece.units := by
      rw [← units_pieces us, hps, List.flatMap_append, List.flatMap_cons, hbefore]
      rfl
    exact ⟨_, hus, (hplace hus).mpr ⟨ps₁, ps₂, hps, hbefore⟩⟩

/-- A piece has as many units as its character, so nothing moves when the text is encoded again. -/
theorem encode_map_char_eq_iff (ps : List Piece) :
    encode (ps.map Piece.char) = ps.flatMap Piece.units ↔
      ∀ p ∈ ps, encodeChar p.char = p.units := by
  induction ps with
  | nil => exact iff_of_true rfl (by simp)
  | cons p ps ih =>
    have hlen : (encodeChar p.char).length = p.units.length := by cases p <;> rfl
    rw [List.map_cons, List.flatMap_cons, encode, List.flatMap_cons, ← encode, List.forall_mem_cons,
      ← ih]
    constructor
    · exact fun h => List.append_inj h hlen
    · rintro ⟨hp, hps⟩
      rw [hp, hps]

/-- What is encoded again is the same unless a surrogate is on its own. -/
theorem encode_decode_eq_iff (us : List UInt16) :
    encode (decode us) = us ↔ ∀ before u, ¬ UnpairedAt us before u := by
  have heq : encode (decode us) = us ↔ ∀ p ∈ pieces us, encodeChar p.char = p.units := by
    rw [← encode_map_char_eq_iff, ← decode_eq_map_pieces, units_pieces]
  rw [heq]
  constructor
  · intro h before u hunpaired
    obtain ⟨ps₁, ps₂, hps, -⟩ := (unpairedAt_iff_loneAt us before u).mp hunpaired
    have hu : encodeChar replacement = [u] := h (.lone u) (by simp [hps])
    obtain rfl : 0xFFFD = u := List.head_eq_of_cons_eq hu
    rcases hunpaired with ⟨-, -, ⟨hhigh, -⟩ | ⟨hlow, -⟩⟩
    · exact absurd hhigh (by decide)
    · exact absurd hlow (by decide)
  · intro h p hp
    cases p with
    | scalar c => rfl
    | lone u =>
      obtain ⟨ps₁, ps₂, hps⟩ := List.append_of_mem hp
      exact absurd ((unpairedAt_iff_loneAt us _ u).mpr ⟨ps₁, ps₂, hps, rfl⟩) (h _ u)

theorem beforeZero_append_zero (us rest : List UInt16) :
    beforeZero (us ++ 0 :: rest) = beforeZero us := by
  induction us with
  | nil => rfl
  | cons u us ih =>
    simp only [beforeZero, List.cons_append, List.takeWhile_cons] at ih ⊢
    rw [ih]

/-- A text comes back from its units up to its first zero character. Units up to the first zero come
back from their text exactly if none is an unpaired surrogate. That text always has one character
for each piece, and the pieces that become the replacement are the unpaired surrogates. -/
theorem marshaling_lossless_iff_paired :
    (∀ s : String,
      untilZero (terminated s) = String.ofList (s.toList.takeWhile (· != '\x00'))) ∧
    ∀ us rest : List UInt16,
      (terminated (untilZero (us ++ 0 :: rest)) = beforeZero us ++ [0] ↔
        ∀ before u, ¬ UnpairedAt (beforeZero us) before u) ∧
      ∃ ps : List Piece, ps.flatMap Piece.units = beforeZero us ∧
        untilZero (us ++ 0 :: rest) = String.ofList (ps.map Piece.char) ∧
        ∀ before u, UnpairedAt (beforeZero us) before u ↔ LoneAt ps before u := by
  refine ⟨fun s => ?_, fun us rest => ?_⟩
  · rw [untilZero, ← beforeZero, terminated, beforeZero_encode, decode_encode]
  · rw [untilZero, ← beforeZero, beforeZero_append_zero]
    refine ⟨?_, pieces (beforeZero us), units_pieces _, ?_, unpairedAt_iff_loneAt _⟩
    · rw [terminated, String.toList_ofList, List.append_left_inj, encode_decode_eq_iff]
    · rw [decode_eq_map_pieces]

example : untilZero [0xD83D, 0x61, 0xDE00, 0, 0x62] = "\uFFFDa\uFFFD" := by decide

end SpeechBridge.Utf16

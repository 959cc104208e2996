import Mathlib.Data.List.Basic
import Mathlib.Data.Nat.Init
import SpeechBridge.Voice.Environment

/-!
# Pieces of a text with references

The percent signs of a text cut it into pieces, and a piece at an odd place that is not the last one
is the name of a variable. Main statement: the value of the variable takes the place of its name and
of the percent signs around it, and all else stays as it is.
-/
namespace SpeechBridge.Environment

/-- The value that is put in for a name. There is none for the empty name, nor for a variable that
is not set or holds no text. -/
def value? (env : Environment) : List Char → Option (List Char)
  | [] => none
  | name =>
    match env.lookup (String.ofList name) with
    | some (.text value) => some value.toList
    | _ => none

/-- The pieces up to the one at a place, with percent signs between them. -/
def joined (p : Nat → List Char) (n : Nat) : List Char :=
  ['%'].intercalate ((List.range (n + 1)).map p)

def oddBelow (n : Nat) : List Nat := (List.range n).filter (· % 2 = 1)

/-- The pieces up to the one at a place, with something put in for each name. -/
def replaced (put : List Char → List Char) (p : Nat → List Char) (n : Nat) : List Char :=
  p 0 ++ (oddBelow n).flatMap (fun i => put (p i) ++ p (i + 1)) ++
    if n % 2 = 1 then '%' :: p n else []

theorem joined_zero (p : Nat → List Char) : joined p 0 = p 0 := by
  simp [joined]

theorem joined_succ (p : Nat → List Char) (n : Nat) :
    joined p (n + 1) = p 0 ++ '%' :: joined (fun i => p (i + 1)) n := by
  rw [joined, List.range_succ_eq_map, List.map_cons, List.map_map,
    List.intercalate_cons_of_ne_nil (by simp)]
  simp [joined, Function.comp_def]

theorem oddBelow_add_two (n : Nat) : oddBelow (n + 2) = 1 :: (oddBelow n).map (· + 2) := by
  rw [oddBelow, List.range_succ_eq_map, List.range_succ_eq_map]
  simp [oddBelow, List.filter_map, Function.comp_def, Nat.add_assoc]

theorem replaced_add_two (put : List Char → List Char) (p : Nat → List Char) (n : Nat) :
    replaced put p (n + 2) = p 0 ++ (put (p 1) ++ replaced put (fun i => p (i + 2)) n) := by
  simp [replaced, oddBelow_add_two, List.flatMap_map]

theorem replaced_congr {put put' : List Char → List Char} {p : Nat → List Char} {n : Nat}
    (h : ∀ i ∈ oddBelow n, put (p i) = put' (p i)) : replaced put p n = replaced put' p n := by
  have hf : (oddBelow n).flatMap (fun i => put (p i) ++ p (i + 1)) =
      (oddBelow n).flatMap fun i => put' (p i) ++ p (i + 1) := by
    apply List.flatMap_congr
    intro i hi
    rw [h i hi]
  rw [replaced, replaced, hf]

theorem exists_joined (cs : List Char) : ∃ n p, (∀ i ≤ n, '%' ∉ p i) ∧ joined p n = cs := by
  induction cs with
  | nil => exact ⟨0, fun _ => [], by simp, joined_zero _⟩
  | cons c cs ih =>
    obtain ⟨n, p, hp, hj⟩ := ih
    by_cases hc : c = '%'
    · refine ⟨n + 1, fun i => if i = 0 then [] else p (i - 1), ?_, ?_⟩
      · intro i hi
        by_cases hz : i = 0
        · simp [hz]
        · simpa [hz] using hp (i - 1) (by omega)
      · simp [joined_succ, hc, hj]
    · refine ⟨n, fun i => if i = 0 then c :: p 0 else p i, ?_, ?_⟩
      · intro i hi
        by_cases hz : i = 0
        · simpa [hz, Ne.symm hc] using hp 0 (Nat.zero_le n)
        · simpa [hz] using hp i hi
      · cases n with
        | zero =>
          rw [joined_zero] at hj ⊢
          simp [hj]
        | succ n =>
          rw [joined_succ] at hj ⊢
          simp [← hj]

variable (env : Environment)

theorem reference_eq (name : List Char) :
    env.reference name = (env.value? name).getD ('%' :: name ++ ['%']) := by
  cases name with
  | nil => rfl
  | cons c cs =>
    unfold reference value? text?
    dsimp only
    cases h : env.lookup (String.ofList (c :: cs)) with
    | none => rfl
    | some value => cases value <;> rfl

theorem value?_nil (name : List Char) : value? [] name = none := by
  cases name <;> rfl

theorem scan_none_append {text : List Char} (h : '%' ∉ text) (rest : List Char) :
    env.scan none (text ++ rest) = text ++ env.scan none rest := by
  induction text with
  | nil => rfl
  | cons c cs ih =>
    rw [List.mem_cons, not_or] at h
    rw [List.cons_append, scan, if_neg (Ne.symm h.1), ih h.2, List.cons_append]

theorem scan_some_append {text : List Char} (h : '%' ∉ text) (name rest : List Char) :
    env.scan (some name) (text ++ rest) = env.scan (some (name ++ text)) rest := by
  induction text generalizing name with
  | nil => rw [List.nil_append, List.append_nil]
  | cons c cs ih =>
    rw [List.mem_cons, not_or] at h
    rw [List.cons_append, scan, if_neg (Ne.symm h.1), ih h.2, List.append_assoc]
    rfl

theorem scan_joined {n : Nat} {p : Nat → List Char} (h : ∀ i ≤ n, '%' ∉ p i) :
    env.scan none (joined p n) = replaced env.reference p n := by
  induction n using Nat.twoStepInduction generalizing p with
  | zero =>
    have hend := env.scan_none_append (h 0 (Nat.le_refl 0)) []
    rw [List.append_nil] at hend
    rw [joined_zero, hend]
    simp [replaced, oddBelow, scan]
  | one =>
    have hopen : env.scan (some []) (p 1) = '%' :: p 1 := by
      have hend := env.scan_some_append (h 1 (Nat.le_refl 1)) [] []
      rw [List.append_nil] at hend
      rw [hend]
      rfl
    rw [joined_succ, joined_zero, env.scan_none_append (h 0 (by omega)), scan, if_pos rfl, hopen]
    simp [replaced, oddBelow]
  | more n ih _ =>
    have hrest := @ih (fun i => p (i + 2)) fun i hi => h (i + 2) (by omega)
    rw [joined_succ, joined_succ, env.scan_none_append (h 0 (by omega)), scan, if_pos rfl,
      env.scan_some_append (h 1 (by omega)), scan, if_pos rfl, hrest, replaced_add_two]
    rfl

theorem scan_nil (state : Option (List Char)) (cs : List Char) :
    scan [] state cs = state.elim [] ('%' :: ·) ++ cs := by
  induction cs generalizing state with
  | nil => cases state <;> simp [scan]
  | cons c cs ih =>
    by_cases hc : c = '%'
    · cases state <;> simp [scan, hc, ih, reference, text?]
    · cases state <;> simp [scan, hc, ih]

/-- Reading starts anew wherever no name is open, which is behind an even number of percent signs,
that of an open name included. -/
theorem scan_append (state : Option (List Char)) {cs : List Char}
    (h : (state.elim 0 (fun _ => 1) + cs.count '%') % 2 = 0) (rest : List Char) :
    env.scan state (cs ++ rest) = env.scan state cs ++ env.scan none rest := by
  induction cs generalizing state with
  | nil =>
    cases state with
    | none => rfl
    | some name => simp at h
  | cons c cs ih =>
    by_cases hc : c = '%'
    · subst hc
      rw [List.count_cons_self] at h
      cases state with
      | none =>
        have hname := ih (some []) (by simp at h ⊢; omega)
        simpa [scan] using hname
      | some name =>
        have htext := ih none (by simp at h ⊢; omega)
        simp [scan, htext]
    · rw [List.count_cons_of_ne hc] at h
      cases state with
      | none => simp [scan, hc, ih none h]
      | some name => simpa [scan, hc] using ih (some (name ++ [c])) h

/-- Every text can be cut into pieces at its percent signs, and it is read as these. For a piece at
an odd place with another one behind it stands the value of the variable with that name, if there is
one, and else the piece with its percent signs, and then comes the next piece; a last piece at an
odd place keeps its percent sign. So the text stays as it is if none of the names has a value, and
if it has an even number of percent signs, what comes behind it is expanded on its own. -/
theorem expand_by_pieces (s : String) :
    (∃ n p, (∀ i ≤ n, '%' ∉ p i) ∧ joined p n = s.toList) ∧
    (∀ n p, (∀ i ≤ n, '%' ∉ p i) → joined p n = s.toList →
      (env.expand s).toList =
        p 0 ++ (oddBelow n).flatMap
            (fun i => (env.value? (p i)).getD ('%' :: p i ++ ['%']) ++ p (i + 1)) ++
          (if n % 2 = 1 then '%' :: p n else []) ∧
      ((∀ i ∈ oddBelow n, env.value? (p i) = none) → env.expand s = s)) ∧
    (s.toList.count '%' % 2 = 0 → ∀ t, env.expand (s ++ t) = env.expand s ++ env.expand t) := by
  refine ⟨exists_joined s.toList, ?_, ?_⟩
  · intro n p hp hj
    constructor
    · simp only [expand, String.toList_ofList, ← hj, env.scan_joined hp, replaced, reference_eq]
    · intro hnone
      have hsame : replaced env.reference p n = replaced (reference []) p n := by
        apply replaced_congr
        intro i hi
        rw [reference_eq, reference_eq, hnone i hi, value?_nil]
      apply String.toList_injective
      rw [expand, String.toList_ofList, ← hj, env.scan_joined hp, hsame, ← scan_joined [] hp,
        scan_nil]
      rfl
  · intro heven t
    rw [expand, String.toList_append, env.scan_append none (by simpa using heven),
      String.ofList_append]
    rfl

example : expand [("A", .text "%B%"), ("B", .text "b"), ("C", .bytes [255])] "1%A%2%%%C%%B% 50%" =
    "1%B%2%%%C%b 50%" := by decide +kernel

end SpeechBridge.Environment

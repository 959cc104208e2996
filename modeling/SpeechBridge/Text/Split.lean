/-!
# Splitting at one character

The first or the last occurrence of a separator cuts a text in two; without one there is
no cut. Cutting at every occurrence is `List.splitOn`.
-/
namespace SpeechBridge.Split

def atFirst (sep : Char) : List Char → Option (List Char × List Char)
  | [] => none
  | c :: cs =>
    if c = sep then some ([], cs)
    else (atFirst sep cs).map fun cut => (c :: cut.1, cut.2)

def atLast (sep : Char) : List Char → Option (List Char × List Char)
  | [] => none
  | c :: cs =>
    match atLast sep cs with
    | some cut => some (c :: cut.1, cut.2)
    | none => if c = sep then some ([], cs) else none

theorem atLast_eq_some {sep : Char} {cs left right : List Char}
    (h : atLast sep cs = some (left, right)) : cs = left ++ sep :: right := by
  induction cs generalizing left with
  | nil => simp [atLast] at h
  | cons c cs ih =>
    simp only [atLast] at h
    split at h
    next cut hcut =>
      obtain ⟨rfl, rfl⟩ := Prod.mk.inj (Option.some.inj h)
      rw [ih hcut]
      rfl
    next =>
      split at h
      · obtain ⟨rfl, rfl⟩ := Prod.mk.inj (Option.some.inj h)
        simp_all
      · simp at h

theorem atLast_eq_none {sep : Char} {cs : List Char} (h : sep ∉ cs) : atLast sep cs = none := by
  induction cs with
  | nil => rfl
  | cons c cs ih =>
    rw [List.mem_cons, not_or] at h
    rw [atLast, ih h.2]
    exact if_neg (Ne.symm h.1)

theorem atLast_append {sep : Char} {right : List Char} (h : sep ∉ right) (left : List Char) :
    atLast sep (left ++ sep :: right) = some (left, right) := by
  induction left with
  | nil =>
    rw [List.nil_append, atLast, atLast_eq_none h]
    exact if_pos rfl
  | cons c left ih => rw [List.cons_append, atLast, ih]

theorem notMem_of_mem_splitOn {sep : Char} {cs piece : List Char} (h : piece ∈ cs.splitOn sep) :
    sep ∉ piece := by
  induction cs generalizing piece with
  | nil =>
    rw [List.splitOn_nil, List.mem_singleton] at h
    rw [h]
    exact List.not_mem_nil
  | cons c cs ih =>
    obtain ⟨first, pieces, hs⟩ := List.exists_cons_of_ne_nil (List.splitOn_ne_nil sep cs)
    rw [hs] at ih
    rw [List.splitOn_cons_eq_if_modifyHead, hs] at h
    split at h
    · rcases List.mem_cons.mp h with rfl | h
      · exact List.not_mem_nil
      · exact ih h
    next hc =>
      rcases List.mem_cons.mp h with rfl | h
      · rw [List.mem_cons, not_or]
        constructor
        · rintro rfl
          exact hc (beq_self_eq_true _)
        · exact ih (List.mem_cons_self)
      · exact ih (List.mem_cons_of_mem _ h)

end SpeechBridge.Split

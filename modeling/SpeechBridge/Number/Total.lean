/-!
# Totals

What a list weighs is the total of a measure over it.
-/
namespace SpeechBridge

def total {α : Type} (f : α → Nat) : List α → Nat
  | [] => 0
  | a :: l => f a + total f l

variable {α : Type} (f : α → Nat)

@[simp] theorem total_nil : total f [] = 0 := rfl

@[simp] theorem total_cons (a : α) (l : List α) : total f (a :: l) = f a + total f l := rfl

@[simp] theorem total_append (a b : List α) : total f (a ++ b) = total f a + total f b := by
  induction a with
  | nil => simp
  | cons x a ih => simp [ih, Nat.add_assoc]

theorem total_map {β : Type} (g : β → α) (l : List β) :
    total f (l.map g) = total (fun b => f (g b)) l := by
  induction l with
  | nil => rfl
  | cons b l ih => rw [List.map_cons, total_cons, total_cons, ih]

theorem total_filter_add (p : α → Bool) (l : List α) :
    total f (l.filter p) + total f (l.filter fun a => !p a) = total f l := by
  induction l with
  | nil => rfl
  | cons a l ih =>
    cases h : p a <;> simp [h] <;> omega

theorem total_eraseIdx {l : List α} {i : Nat} {a : α} (h : l[i]? = some a) :
    total f (l.eraseIdx i) + f a = total f l := by
  induction l generalizing i with
  | nil => simp at h
  | cons b l ih =>
    cases i with
    | zero =>
      simp only [List.getElem?_cons_zero, Option.some.injEq] at h
      rw [h, List.eraseIdx_zero, List.tail_cons, total_cons, Nat.add_comm]
    | succ i =>
      have := ih (i := i) (by simpa using h)
      simp only [List.eraseIdx_cons_succ, total_cons]
      omega

theorem total_set {l : List α} {i : Nat} {a : α} (h : l[i]? = some a) (b : α) :
    total f (l.set i b) + f a = total f l + f b := by
  induction l generalizing i with
  | nil => simp at h
  | cons c l ih =>
    cases i with
    | zero =>
      simp only [List.getElem?_cons_zero, Option.some.injEq] at h
      rw [h, List.set_cons_zero, total_cons, total_cons]
      omega
    | succ i =>
      have := ih (i := i) (by simpa using h)
      simp only [List.set_cons_succ, total_cons]
      omega

end SpeechBridge

/-!
# Decimal numerals

Writing is `Nat.toDigits 10`. Reading takes ASCII digits only, a sign where the kind of
number has one, and leading zeros of any length.
-/
namespace SpeechBridge.Numeral

def write (n : Nat) : List Char := Nat.toDigits 10 n

def writeInt : Int → List Char
  | .ofNat n => write n
  | .negSucc n => '-' :: write (n + 1)

def readDigits (cs : List Char) : Option Nat :=
  if cs ≠ [] ∧ cs.all Char.isDigit then some (Nat.ofDigitChars 10 cs 0) else none

def readSigned : List Char → Option Int
  | '+' :: ds => (readDigits ds).map fun n => (n : Int)
  | '-' :: ds => (readDigits ds).map fun n => -(n : Int)
  | ds => (readDigits ds).map fun n => (n : Int)

def readInt64 (cs : List Char) : Option Int :=
  (readSigned cs).filter fun i => -9223372036854775808 ≤ i ∧ i ≤ 9223372036854775807

def readBelow (limit : Nat) (cs : List Char) : Option Nat :=
  let digits := match cs with
    | '+' :: ds => ds
    | ds => ds
  (readDigits digits).filter (· < limit)

theorem readDigits_write (n : Nat) : readDigits (write n) = some n := by
  have hne : write n ≠ [] := Nat.toDigits_ne_nil
  have hall : (write n).all Char.isDigit := by
    rw [List.all_eq_true]
    exact fun c hc => Nat.isDigit_of_mem_toDigits (by decide) (by decide) hc
  rw [readDigits, if_pos ⟨hne, hall⟩]
  exact congrArg some Nat.ofDigitChars_ten_toDigits

theorem isDigit_of_mem_write {n : Nat} {c : Char} (h : c ∈ write n) : c.isDigit :=
  Nat.isDigit_of_mem_toDigits (by decide) (by decide) h

theorem exists_write_eq_cons (n : Nat) : ∃ c cs, write n = c :: cs ∧ c ≠ '+' ∧ c ≠ '-' := by
  obtain ⟨c, cs, h⟩ := List.exists_cons_of_ne_nil (Nat.toDigits_ne_nil (b := 10) (n := n))
  have hd : c.isDigit := isDigit_of_mem_write (n := n) (by rw [write, h]; exact List.mem_cons_self)
  refine ⟨c, cs, h, ?_, ?_⟩
  · rintro rfl
    exact absurd hd (by decide)
  · rintro rfl
    exact absurd hd (by decide)

theorem readSigned_write (n : Nat) : readSigned (write n) = some (n : Int) := by
  have hr := readDigits_write n
  obtain ⟨c, cs, h, hplus, hminus⟩ := exists_write_eq_cons n
  rw [h] at hr ⊢
  unfold readSigned
  split
  next he => exact absurd (List.cons.inj he).1 hplus
  next he => exact absurd (List.cons.inj he).1 hminus
  next => rw [hr]; rfl

theorem readInt64_write (n : Nat) :
    readInt64 (write n) = if n ≤ 9223372036854775807 then some (n : Int) else none := by
  rw [readInt64, readSigned_write, Option.filter_some]
  split
  next h =>
    rw [if_pos]
    simp at h
    omega
  next h =>
    rw [if_neg]
    simp at h
    omega

theorem readBelow_write (limit n : Nat) :
    readBelow limit (write n) = if n < limit then some n else none := by
  have hr := readDigits_write n
  obtain ⟨c, cs, h, hplus, _⟩ := exists_write_eq_cons n
  rw [h] at hr ⊢
  unfold readBelow
  split
  next he => exact absurd (List.cons.inj he).1 hplus
  next =>
    dsimp only
    rw [hr, Option.filter_some]
    simp

end SpeechBridge.Numeral

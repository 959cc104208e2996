/-!
# Binary floating point with 53 digits

A finite value is a whole significand times a power of two. Products and quotients are rounded
once, to 53 binary digits, ties to an even last digit. Exponents are unbounded here: values
too large or too small for a 64-bit word end at the limit of an integer range or at zero, as
they would after overflow or underflow.
-/
namespace SpeechBridge

/-- The value `significand * 2 ^ exponent`. -/
structure Dyadic where
  significand : Int
  exponent : Int
  deriving DecidableEq, Repr

namespace Dyadic

def halveToEven (n k : Nat) : Nat :=
  let q := n / Nat.pow 2 k
  let r := n % Nat.pow 2 k
  if 2 * r < Nat.pow 2 k then q
  else if Nat.pow 2 k < 2 * r then q + 1
  else q + q % 2

def round (d : Dyadic) : Dyadic :=
  let surplus := d.significand.natAbs.log2 + 1 - 53
  if d.significand.natAbs = 0 then d
  else
    ⟨d.significand.sign * halveToEven d.significand.natAbs surplus, d.exponent + surplus⟩

def timesNat (d : Dyadic) (n : Nat) : Dyadic := round ⟨d.significand * n, d.exponent⟩

/-- The quotient of two natural numbers. A last digit stands for what division leaves over. -/
def quotient (n d : Nat) : Dyadic :=
  let shift := 55 + d.log2
  let q := n * Nat.pow 2 shift / d
  let sticky := if n * Nat.pow 2 shift % d = 0 then 0 else 1
  round ⟨(2 * q + sticky : Nat), -((shift : Int) + 1)⟩

def truncate (d : Dyadic) : Int :=
  if 0 ≤ d.exponent then d.significand * Int.pow 2 d.exponent.toNat
  else d.significand.tdiv (Int.pow 2 d.exponent.natAbs)

/-- The nearest whole number, ties away from zero. -/
def nearest (d : Dyadic) : Int :=
  if 0 ≤ d.exponent then d.significand * Int.pow 2 d.exponent.toNat
  else (2 * d.significand + d.significand.sign * Int.pow 2 d.exponent.natAbs).tdiv
    (Int.pow 2 (d.exponent.natAbs + 1))

def isOne (d : Dyadic) : Bool :=
  if 0 ≤ d.exponent then d.significand * Int.pow 2 d.exponent.toNat == 1
  else d.significand == Int.pow 2 d.exponent.natAbs

example : (Dyadic.mk 5 (-1)).nearest = 3 ∧ (Dyadic.mk (-5) (-1)).nearest = -3 := by decide
example : (Dyadic.mk (-7) (-1)).truncate = -3 := by decide

end Dyadic

end SpeechBridge

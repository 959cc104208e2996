import SpeechBridge.Number.Binary64

/-!
# Multipliers

A change of pitch, rate or volume is a factor given as a 64-bit floating point number, which may
also be infinite or no number. The sign of zero never shows, so zero has none here.
-/
namespace SpeechBridge

inductive Multiplier where
  | notANumber
  | infinite (negative : Bool)
  | finite (value : Dyadic)
  deriving DecidableEq, Repr

namespace Multiplier

def ofBits (bits : UInt64) : Multiplier :=
  let negative := Nat.pow 2 63 ≤ bits.toNat
  let exponent : Nat := bits.toNat / Nat.pow 2 52 % Nat.pow 2 11
  let fraction : Nat := bits.toNat % Nat.pow 2 52
  let sign : Int := if negative then -1 else 1
  if exponent = 2047 then
    if fraction = 0 then infinite negative else notANumber
  else if exponent = 0 then finite ⟨sign * fraction, -1074⟩
  else finite ⟨sign * (Nat.pow 2 52 + fraction : Nat), exponent - 1075⟩

def isNormal : Multiplier → Bool
  | finite d => d.isOne
  | _ => false

def int64Min : Int := -9223372036854775808
def int64Max : Int := 9223372036854775807
def word32Max : Nat := 4294967295

/-- A hundred times the factor, cut to a whole number and held to the 64-bit range. -/
def percent : Multiplier → Int
  | notANumber => 0
  | infinite negative => if negative then int64Min else int64Max
  | finite d => max int64Min (min (d.timesNat 100).truncate int64Max)

/-- The factor applied to a base, to the nearest whole number that a 32-bit word holds. -/
def scale (base : Nat) : Multiplier → Nat
  | notANumber => 0
  | infinite negative => if negative ∨ base = 0 then 0 else word32Max
  | finite d => min (d.timesNat base).nearest.toNat word32Max

example : percent (ofBits 0x3FF6666666666666) = 140 := by decide
example : isNormal (ofBits 0x3FF0000000000000) := by decide
example : scale 45 (ofBits 0x3FE0000000000000) = 23 := by decide

end Multiplier

end SpeechBridge

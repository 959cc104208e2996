import SpeechBridge.Number.Binary64

/-!
# Rate, pitch and volume

Rate and pitch are levels between -100 and 100, volume is a percentage. Values out of range are
moved to the nearest bound. Levels map to percentages through binary fractions, so four of
them come out one lower than exact halving would give.
-/
namespace SpeechBridge

/-- A rate or a pitch; zero is normal. -/
structure Level where
  value : Int
  low : -100 ≤ value
  high : value ≤ 100
  deriving DecidableEq, Repr

namespace Level

def clamp (i : Int) : Level := ⟨max (-100) (min i 100), by omega, by omega⟩

def ofPercent (percent : Nat) : Level := clamp (2 * (min percent 100 : Nat) - 100)

/-- The level as a percentage: its share of the range, in binary fractions, times 100. -/
def percent (l : Level) : Nat :=
  min (((Dyadic.quotient (l.value + 100).toNat 200).timesNat 100).nearest.toNat) 100

end Level

structure Volume where
  value : Nat
  high : value ≤ 100
  deriving DecidableEq, Repr

namespace Volume

def clamp (n : Nat) : Volume := ⟨min n 100, by omega⟩

end Volume

structure Settings where
  rate : Level
  pitch : Level
  volume : Volume
  deriving DecidableEq, Repr

namespace Settings

def start : Settings := ⟨.ofPercent 50, .ofPercent 50, .clamp 100⟩

end Settings

example : (Level.ofPercent 25).value = -50 ∧ (Level.ofPercent 250).value = 100 := by decide
example : [0, 1, 33, 50, 67, 99, 100].map (fun p => (Level.ofPercent p).percent) =
    [0, 1, 33, 50, 67, 99, 100] := by decide
example : [-71, -43, 13, 15].map (fun i => (Level.clamp i).percent) = [14, 28, 56, 57] := by decide

end SpeechBridge

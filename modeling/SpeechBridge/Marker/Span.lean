import SpeechBridge.Marker.Basic
import SpeechBridge.Text.Numeral

/-!
# Spans of time as text

A span is written in the largest of seconds, milliseconds, microseconds and nanoseconds of which
it holds one, with all digits after the point but no zeros at their end.
-/
namespace SpeechBridge.Offset

def fraction (width part : Nat) : List Char :=
  let digits := (Numeral.write (Nat.pow 10 width + part)).drop 1
  match (digits.reverse.dropWhile (· == '0')).reverse with
  | [] => []
  | ds => '.' :: ds

def inUnit (o : Offset) (width : Nat) (unit : String) : String :=
  String.ofList (Numeral.write (o.nanoseconds / Nat.pow 10 width) ++
    fraction width (o.nanoseconds % Nat.pow 10 width)) ++ unit

def text (o : Offset) : String :=
  if 1000000000 ≤ o.nanoseconds then o.inUnit 9 "s"
  else if 1000000 ≤ o.nanoseconds then o.inUnit 6 "ms"
  else if 1000 ≤ o.nanoseconds then o.inUnit 3 "µs"
  else o.inUnit 0 "ns"

example : [0, 100, 1200, 812500000, 1000000100].map (fun n => (Offset.mk n).text) =
    ["0ns", "100ns", "1.2µs", "812.5ms", "1.0000001s"] := by decide +kernel

end SpeechBridge.Offset

import SpeechBridge.Error
import SpeechBridge.Marker.Basic
import SpeechBridge.Text.Blank
import SpeechBridge.Text.Numeral
import SpeechBridge.Text.Split
import SpeechBridge.Text.Utf16

/-!
# The wire form of markers

A marker is written as its text, a colon and its ticks; a list joins its markers with bars.
Nothing is escaped. Reading cuts at every bar and each piece at its last colon, and allows
white space and a sign around the ticks.
-/
namespace SpeechBridge

namespace Marker

def write (m : Marker) : List Char := m.text.toList ++ ':' :: Numeral.write m.ticks

def read? (piece : List Char) : Option Marker := do
  let cut ← Split.atLast ':' piece
  let ticks ← Numeral.readInt64 (Blank.trim cut.2)
  return ofTicks (String.ofList cut.1) ticks

def read (piece : List Char) : Except Error Marker :=
  match read? piece with
  | some m => .ok m
  | none => .error (.malformedMarker (String.ofList piece))

end Marker

namespace Markers

def write (ms : List Marker) : List Char := ['|'].intercalate (ms.map Marker.write)

def readPieces : List (List Char) → Except Error (List Marker)
  | [] => .ok []
  | piece :: pieces =>
    match Marker.read piece with
    | .error e => .error e
    | .ok m =>
      match readPieces pieces with
      | .error e => .error e
      | .ok ms => .ok (m :: ms)

def read (cs : List Char) : Except Error (List Marker) :=
  if cs = [] then .ok [] else readPieces (cs.splitOn '|')

def toWire (ms : List Marker) : String := String.ofList (write ms)

def ofWire (s : String) : Except Error (List Marker) := read s.toList

/-- The wire form as units for a foreign caller, zero at the end. -/
def toWide (ms : List Marker) : List UInt16 := Utf16.terminated (toWire ms)

end Markers

end SpeechBridge

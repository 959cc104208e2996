/-!
# UTF-16

Encoding is one unit per character up to U+FFFF and a surrogate pair above. Decoding never
fails: an unpaired surrogate becomes U+FFFD. Strings that cross a boundary by address end at
the first zero unit.
-/
namespace SpeechBridge.Utf16

def encodeChar (c : Char) : List UInt16 :=
  if c.toNat < 0x10000 then [c.toNat.toUInt16]
  else
    [(0xD800 + (c.toNat - 0x10000) / 0x400).toUInt16,
     (0xDC00 + (c.toNat - 0x10000) % 0x400).toUInt16]

def encode (cs : List Char) : List UInt16 := cs.flatMap encodeChar

def isHigh (u : UInt16) : Bool := 0xD800 ≤ u.toNat && u.toNat < 0xDC00
def isLow (u : UInt16) : Bool := 0xDC00 ≤ u.toNat && u.toNat < 0xE000

def pair (high low : UInt16) : Char :=
  Char.ofNat (0x10000 + (high.toNat - 0xD800) * 0x400 + (low.toNat - 0xDC00))

def replacement : Char := Char.ofNat 0xFFFD

def single (u : UInt16) : Char :=
  if isHigh u || isLow u then replacement else Char.ofNat u.toNat

def decode : List UInt16 → List Char
  | [] => []
  | [u] => [single u]
  | u :: v :: us =>
    if isHigh u && isLow v then pair u v :: decode us else single u :: decode (v :: us)

def terminated (s : String) : List UInt16 := encode s.toList ++ [0]

def untilZero (us : List UInt16) : String := String.ofList (decode (us.takeWhile (· != 0)))

end SpeechBridge.Utf16

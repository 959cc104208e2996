import SpeechBridge.Audio.Format

/-!
# Timing markers

A marker names a place in rendered audio by the time at which it is reached. Platforms count
time in ticks of 100 nanoseconds; playback needs positions in bytes.
-/
namespace SpeechBridge

def wordSize : Nat := 18446744073709551616

structure Offset where
  nanoseconds : Nat
  deriving DecidableEq, Repr

namespace Offset

def nanosPerTick : Nat := 100
def nanosPerSecond : Nat := 1000000000

/-- A span in ticks; a negative one counts as zero. -/
def ofTicks (ticks : Int) : Offset := ⟨ticks.toNat * nanosPerTick⟩

def ofParts (seconds nanos : Nat) : Offset := ⟨seconds * nanosPerSecond + nanos⟩

def wholeSeconds (o : Offset) : Nat := o.nanoseconds / nanosPerSecond
def subsecondNanos (o : Offset) : Nat := o.nanoseconds % nanosPerSecond

/-- Whole ticks, of which a 64-bit word is kept. -/
def ticks (o : Offset) : Nat := o.nanoseconds / nanosPerTick % wordSize

end Offset

structure Marker where
  text : String
  offset : Offset
  deriving DecidableEq, Repr

namespace Marker

def ticksPerSecond : Nat := 10000000

def ofTicks (text : String) (ticks : Int) : Marker := ⟨text, .ofTicks ticks⟩

def ticks (m : Marker) : Nat := m.offset.ticks

/-- The position in audio of the format, at most the largest 64-bit size. -/
def byteOffset (m : Marker) (f : AudioFormat) : Nat :=
  min (m.ticks * f.bytesPerSecond / ticksPerSecond) (wordSize - 1)

theorem ticks_ofTicks {text : String} {n : Nat} (h : n < wordSize) :
    (ofTicks text n).ticks = n := by
  simp only [wordSize] at h
  simp only [ticks, ofTicks, Offset.ofTicks, Offset.ticks, Offset.nanosPerTick, wordSize,
    Int.toNat_natCast]
  omega

end Marker

end SpeechBridge

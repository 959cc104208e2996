/-!
# Audio formats

Linear PCM: a sample rate, a sample width and a channel count fix the size of a frame and of
a second of audio.
-/
namespace SpeechBridge

inductive SampleRate where
  | hz8000 | hz11025 | hz12000 | hz16000 | hz22050 | hz24000 | hz32000 | hz44100 | hz48000
  deriving DecidableEq, Repr

namespace SampleRate

def hertz : SampleRate → Nat
  | hz8000 => 8000
  | hz11025 => 11025
  | hz12000 => 12000
  | hz16000 => 16000
  | hz22050 => 22050
  | hz24000 => 24000
  | hz32000 => 32000
  | hz44100 => 44100
  | hz48000 => 48000

def all : List SampleRate :=
  [hz8000, hz11025, hz12000, hz16000, hz22050, hz24000, hz32000, hz44100, hz48000]

def ofHertz? (n : Nat) : Option SampleRate := all.find? (·.hertz == n)

end SampleRate

inductive SampleWidth where
  | bits8 | bits16
  deriving DecidableEq, Repr

def SampleWidth.bits : SampleWidth → Nat
  | .bits8 => 8
  | .bits16 => 16

def SampleWidth.ofBits? : Nat → Option SampleWidth
  | 8 => some .bits8
  | 16 => some .bits16
  | _ => none

inductive Channels where
  | mono | stereo
  deriving DecidableEq, Repr

def Channels.count : Channels → Nat
  | .mono => 1
  | .stereo => 2

def Channels.ofCount? : Nat → Option Channels
  | 1 => some .mono
  | 2 => some .stereo
  | _ => none

structure AudioFormat where
  rate : SampleRate
  width : SampleWidth
  channels : Channels
  deriving DecidableEq, Repr

namespace AudioFormat

/-- Bytes of one frame, a sample for every channel. -/
def blockAlign (f : AudioFormat) : Nat := f.channels.count * f.width.bits / 8

def bytesPerSecond (f : AudioFormat) : Nat := f.rate.hertz * f.blockAlign

def standard : AudioFormat := ⟨.hz22050, .bits16, .mono⟩

theorem blockAlign_pos (f : AudioFormat) : 0 < f.blockAlign := by
  rcases f with ⟨_, w, c⟩
  cases w <;> cases c <;> simp [blockAlign, Channels.count, SampleWidth.bits]

end AudioFormat

end SpeechBridge

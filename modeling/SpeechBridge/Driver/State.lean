import SpeechBridge.Audio.Format
import SpeechBridge.Engine.Basic
import SpeechBridge.Ssml.Document
import SpeechBridge.Voice.Settings

/-!
# A speech driver

A driver speaks sequences one utterance at a time. It queues documents while one is being
synthesized or played, keeps rate, pitch and volume, and picks voices by identifier.
-/
namespace SpeechBridge

structure DriverConfig where
  format : AudioFormat
  /-- Bytes of container header in front of the audio of every delivery. -/
  headerLength : Nat
  filter : String → Bool

structure Driver where
  settings : Settings
  pending : List String
  processing : Bool
  cancelled : Bool
  deriving DecidableEq, Repr

namespace Driver

def start : Driver := ⟨.start, [], false, false⟩

/-- What is played of a delivery: it without its header, if it is longer than that. -/
def playable (c : DriverConfig) (audio : List UInt8) : List UInt8 :=
  if c.headerLength < audio.length then audio.drop c.headerLength else audio

def setRate (d : Driver) (percent : Nat) : Driver :=
  { d with settings := { d.settings with rate := .ofPercent percent } }

def setPitch (d : Driver) (percent : Nat) : Driver :=
  { d with settings := { d.settings with pitch := .ofPercent percent } }

def setVolume (d : Driver) (percent : Nat) : Driver :=
  { d with settings := { d.settings with volume := .clamp percent } }

variable {W E : Type} [VoiceControl W E]

def sendRate (d : Driver) : Act W E Unit :=
  VoiceControl.setProperty VoiceProperty.speakRate.engineName d.settings.rate.value

def sendPitch (d : Driver) : Act W E Unit :=
  VoiceControl.setProperty VoiceProperty.pitch.engineName d.settings.pitch.value

def voices (c : DriverConfig) (onlyValid : Bool) : Act W E (List Voice) := do
  return (← VoiceControl.voices).filter fun v => !onlyValid || c.filter v.id

/-- Selects the first listed voice with the identifier. -/
def setVoice (id : String) : Act W E Unit := do
  match (← VoiceControl.voices).findIdx? (·.id == id) with
  | some index => VoiceControl.setVoice index
  | none => Act.fail (.noSuchVoice id)

def language : Act W E String := do return (← VoiceControl.currentVoice).language

def voiceId : Act W E String := do return (← VoiceControl.currentVoice).id

def document (d : Driver) (language : String) (items : List SpeechItem) : String :=
  Converter.convert ⟨language, .leveled d.settings.volume⟩ items

end Driver

inductive DriverNote (E : Type) where
  | engine (event : E)
  | warn (text : String)
  deriving DecidableEq, Repr

namespace Driver

variable {W E : Type} [VoiceControl W E]

/-- Runs a call whose failure is only warned about. -/
def attempt (act : Act W E Unit) (label : String) (w : W) : W × List (DriverNote E) :=
  let reply := act.run w
  (reply.world, reply.events.map .engine ++ match reply.result with
    | .ok () => []
    | .error e => [.warn (label ++ e.message)])

def introduce (d : Driver) (w : W) : W × List (DriverNote E) :=
  let (w, first) := attempt d.sendRate "Could not set the initial rate: " w
  let (w, second) := attempt d.sendPitch "Could not set the initial pitch: " w
  (w, first ++ second)

end Driver

end SpeechBridge

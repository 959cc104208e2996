import SpeechBridge.Engine.Act
import SpeechBridge.Engine.Completion
import SpeechBridge.Marker.Basic
import SpeechBridge.Voice.Basic

/-!
# Speech engines

What an engine has to offer: rendering of documents in two asynchronous stages, synthesis and
reading, and a choice of voices with numeric properties.
-/
namespace SpeechBridge

/-- Rendering. A stream is what synthesis yields, audio is what reading it yields. -/
class Renderer (W : Type) (E Stream Audio : outParam Type) where
  /-- Submits a document; an error means that it was not accepted. -/
  synthesize : String → Act W E (Operation Stream)
  markers : Stream → Act W E (List Marker)
  readToEnd : Stream → Act W E (Operation Audio)
  bytes : Audio → Act W E (List UInt8)

class VoiceControl (W : Type) (E : outParam Type) where
  voices : Act W E (List Voice)
  currentVoice : Act W E Voice
  setVoice : Nat → Act W E Unit
  setProperty : String → Int → Act W E Unit

end SpeechBridge

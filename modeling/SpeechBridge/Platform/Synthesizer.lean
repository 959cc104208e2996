import SpeechBridge.Platform.Basic

/-!
# Synthesizers

A synthesizer has a current voice and, as a rule, a private interface for numeric properties.
The voices are those of the platform.
-/
namespace SpeechBridge

structure Synthesizer where
  voice : Nat
  hasProperties : Bool
  deriving DecidableEq, Repr

structure Station where
  platform : Platform
  synthesizer : Synthesizer
  deriving DecidableEq, Repr

namespace Synthesizer

def create : Platform.Call Synthesizer := do
  Platform.pass .activateInstance
  Act.note .synthesizerCreated
  match ← Platform.failure? .noProperties with
  | some _ => return ⟨0, false⟩
  | none => return ⟨0, true⟩

def release : Platform.Call Unit := Act.note .synthesizerReleased

end Synthesizer

namespace Station

abbrev Call := Act Station PlatformEvent

def onPlatform {α : Type} (call : Platform.Call α) : Call α :=
  Act.within Station.platform (fun p s => { s with platform := p }) call

def listVoices : Call (List Voice) := onPlatform Platform.listVoices

def currentVoice : Call Voice := do
  onPlatform (Platform.pass .voice)
  let s ← Act.get
  match s.platform.voices[s.synthesizer.voice]? with
  | some v => onPlatform (Platform.readVoice v)
  | none => Act.fail (.platform Platform.outOfBounds)

def setVoice (index : Nat) : Call Unit := do
  onPlatform (Platform.pass .allVoices)
  onPlatform (Platform.pass .voicesSize)
  let count := (← Act.get).platform.voices.length
  if index < count then
    onPlatform (Platform.pass .voicesGetAt)
    onPlatform (Platform.pass .setVoice)
    Act.modify fun s => { s with synthesizer := { s.synthesizer with voice := index } }
    Act.note (.voiceSet index)
  else
    Act.fail (.voiceIndexOutOfRange index count)

def codeOf : Error → String
  | .platform code => codeText code
  | e => e.message

def setProperty (name : String) (value : Int) : Call Unit := do
  if (← Act.get).synthesizer.hasProperties then
    Act.note (.propertySet name value)
    Act.onError (onPlatform (Platform.pass .setVoicePropertyNum)) fun e =>
      .errorLog ("Setting voice property " ++ name ++ " to " ++ toString value ++ " failed: " ++
        codeOf e)
  else
    Act.note (.errorLog ("Synthesizer doesn't expose the voice property interface: " ++
      codeText Platform.noInterface))
    Act.fail (.platform Platform.noInterface)

instance : VoiceControl Station PlatformEvent where
  voices := listVoices
  currentVoice := currentVoice
  setVoice := setVoice
  setProperty := setProperty

end Station

end SpeechBridge

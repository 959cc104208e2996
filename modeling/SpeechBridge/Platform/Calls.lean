/-!
# System calls and planned failures

Every call that the library makes into the platform has a name. Failures are planned by name:
each entry lets a number of calls pass and then fails a number of them.
-/
namespace SpeechBridge

inductive SystemCall where
  | activateInstance
  | noProperties
  | allVoices
  | voicesSize
  | voicesGetAt
  | voice
  | voiceId
  | voiceDisplayName
  | voiceLanguage
  | setVoice
  | setVoicePropertyNum
  | synthesizeSsml
  | streamMarkers
  | markersGetAt
  | markerText
  | markerTime
  | streamSize
  | bufferCreate
  | streamReadAsync
  | bufferLength
  | bufferBuffer
  | allocateString
  | joinApartment
  deriving DecidableEq, Repr

namespace SystemCall

def name : SystemCall → String
  | activateInstance => "ActivateInstance"
  | noProperties => "NoProperties"
  | allVoices => "AllVoices"
  | voicesSize => "Voices.Size"
  | voicesGetAt => "Voices.GetAt"
  | voice => "Voice"
  | voiceId => "Voice.Id"
  | voiceDisplayName => "Voice.DisplayName"
  | voiceLanguage => "Voice.Language"
  | setVoice => "SetVoice"
  | setVoicePropertyNum => "SetVoicePropertyNum"
  | synthesizeSsml => "SynthesizeSsml"
  | streamMarkers => "Stream.Markers"
  | markersGetAt => "Markers.GetAt"
  | markerText => "Marker.Text"
  | markerTime => "Marker.Time"
  | streamSize => "Stream.Size"
  | bufferCreate => "Buffer.Create"
  | streamReadAsync => "Stream.ReadAsync"
  | bufferLength => "Buffer.Length"
  | bufferBuffer => "Buffer.Buffer"
  | allocateString => "SysAllocStringLen"
  | joinApartment => "RoInitialize"

def all : List SystemCall :=
  [activateInstance, noProperties, allVoices, voicesSize, voicesGetAt, voice, voiceId,
   voiceDisplayName, voiceLanguage, setVoice, setVoicePropertyNum, synthesizeSsml, streamMarkers,
   markersGetAt, markerText, markerTime, streamSize, bufferCreate, streamReadAsync, bufferLength,
   bufferBuffer, allocateString, joinApartment]

def ofName? (s : String) : Option SystemCall := all.find? (·.name == s)

end SystemCall

structure CallFailure where
  call : SystemCall
  code : UInt32
  skip : Nat
  times : Nat
  deriving DecidableEq, Repr

namespace CallFailure

/-- Takes a call through the entries in order: one that still skips lets it go on to the next,
one that still fails stops it with its code. -/
def consult (call : SystemCall) : List CallFailure → List CallFailure × Option UInt32
  | [] => ([], none)
  | f :: fs =>
    if f.call = call ∧ f.skip = 0 ∧ 0 < f.times then
      ({ f with times := f.times - 1 } :: fs, some f.code)
    else
      let (rest, code) := consult call fs
      ((if f.call = call then { f with skip := f.skip - 1 } else f) :: rest, code)

end CallFailure

end SpeechBridge

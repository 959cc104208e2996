import SpeechBridge.Platform.Calls
import SpeechBridge.Platform.Conduct
import SpeechBridge.Text.Utf16

/-!
# The platform

The state of the platform as far as calls can show it: installed voices, a script of renderings
and planned failures. Its strings are UTF-16 and become text with unpaired surrogates replaced.
Lists are read item by item until an item cannot be had, which only ends the list.
-/
namespace SpeechBridge

structure PlatformVoice where
  id : List UInt16
  displayName : List UInt16
  language : List UInt16
  deriving DecidableEq, Repr

structure Rendering where
  audio : List UInt8
  markers : List (List UInt16 × Int)
  /-- The size that the stream gives, if it is not that of the audio. -/
  size : Option Nat
  synthesis : Conduct
  read : Conduct
  deriving DecidableEq, Repr

namespace Rendering

def silent : Rendering := ⟨[], [], none, .plain, .plain⟩

def streamSize (r : Rendering) : Nat := r.size.getD r.audio.length

end Rendering

inductive PlatformEvent where
  | synthesizerCreated
  | synthesizerReleased
  | voiceSet (index : Nat)
  | propertySet (name : String) (value : Int)
  | synthesize (document : String)
  | bufferCreated (size : Nat)
  | readStarted (size options : Nat)
  | joined (kind : Nat)
  | left
  | errorLog (text : String)
  deriving DecidableEq, Repr

structure Platform where
  mode : CompletionMode
  voices : List PlatformVoice
  script : List Rendering
  failures : List CallFailure
  deriving DecidableEq, Repr

namespace Platform

abbrev Call := Act Platform PlatformEvent

def outOfBounds : UInt32 := 0x8000000B

def noInterface : UInt32 := 0x80004002

def outOfMemory : UInt32 := 0x8007000E

def text (units : List UInt16) : String := String.ofList (Utf16.decode units)

def failure? (call : SystemCall) : Call (Option UInt32) := fun p =>
  let (failures, code) := CallFailure.consult call p.failures
  ⟨{ p with failures }, [], .ok code⟩

def pass (call : SystemCall) : Call Unit := do
  match ← failure? call with
  | some code => Act.fail (.platform code)
  | none => return ()

theorem run_pass (call : SystemCall) (p : Platform) :
    (pass call).run p =
      ⟨{ p with failures := (CallFailure.consult call p.failures).1 }, [],
        match (CallFailure.consult call p.failures).2 with
        | some code => .error (.platform code)
        | none => .ok ()⟩ := by
  cases h : (CallFailure.consult call p.failures).2 with
  | none => simp [pass, Act.run, Bind.bind, failure?, h, pure]
  | some code => simp [pass, Act.run, Bind.bind, failure?, h, Act.fail]

/-- Reads items one by one. One call more than there are items finds the end. -/
def readItems {α β : Type} (call : SystemCall) (read : α → Call β) : List α → Call (List β)
  | [] => do
    let _ ← failure? call
    return []
  | item :: rest => do
    match ← failure? call with
    | some _ => return []
    | none =>
      let first ← read item
      let others ← readItems call read rest
      return first :: others

def readVoice (v : PlatformVoice) : Call Voice := do
  pass .voiceId
  pass .voiceDisplayName
  pass .voiceLanguage
  return ⟨text v.id, text v.displayName, text v.language⟩

def listVoices : Call (List Voice) := do
  pass .allVoices
  readItems .voicesGetAt readVoice (← Act.get).voices

def synthesize (document : String) : Call (Operation Rendering) := do
  Act.note (.synthesize document)
  pass .synthesizeSsml
  let p ← Act.get
  let rendering := p.script.headD .silent
  Act.set { p with script := p.script.tail }
  return rendering.synthesis.operation p.mode rendering

def readMarker (m : List UInt16 × Int) : Call Marker := do
  pass .markerText
  pass .markerTime
  return .ofTicks (text m.1) m.2

def streamMarkers (r : Rendering) : Call (List Marker) := do
  pass .streamMarkers
  readItems .markersGetAt readMarker r.markers

/-- A stream is read in one piece, whose size a 32-bit word must hold. -/
def readToEnd (r : Rendering) : Call (Operation (List UInt8)) := do
  pass .streamSize
  let size := r.streamSize
  if size < 4294967296 then
    Act.note (.bufferCreated size)
    pass .bufferCreate
    Act.note (.readStarted size 0)
    pass .streamReadAsync
    return r.read.operation (← Act.get).mode (r.audio.take size)
  else
    Act.fail (.engine "speech stream exceeds 4 GiB")

/-- The bytes of a buffer; an empty one is not asked for its storage. -/
def bufferBytes (audio : List UInt8) : Call (List UInt8) := do
  pass .bufferLength
  if audio = [] then return []
  else
    pass .bufferBuffer
    return audio

instance : Renderer Platform PlatformEvent Rendering (List UInt8) where
  synthesize := synthesize
  markers := streamMarkers
  readToEnd := readToEnd
  bytes := bufferBytes

end Platform

end SpeechBridge

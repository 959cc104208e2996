import SpeechBridge.Engine.Studio
import SpeechBridge.Marker.Wire
import SpeechBridge.Platform.Synthesizer
import SpeechBridge.Text.Numeral

/-!
# The flat interface

Foreign hosts use instances by handle, pass strings as units that end at the first zero, and get
audio through a callback. Every call accepts a handle that stands for no instance. The callback
of an utterance is the one registered when it was submitted. Failures are logged.
-/
namespace SpeechBridge

abbrev CallbackId := Nat

structure Instance where
  synthesizer : Synthesizer
  callback : Option CallbackId
  deriving DecidableEq, Repr

inductive FlatEvent where
  | platform (event : PlatformEvent)
  | warn (text : String)
  | errorLog (text : String)
  | callback (id : CallbackId) (audio : List UInt8) (markers : List UInt16)
  deriving DecidableEq, Repr

inductive FlatCall where
  | create
  | terminate
  | setCallback (callback : Option CallbackId)
  | speak (text : Option (List UInt16))
  | voices
  | currentVoiceId
  | currentVoiceLanguage
  | setVoice (index : Int)
  | setProperty (name : Option (List UInt16)) (value : Int)
  deriving DecidableEq, Repr

inductive FlatResult where
  | none
  | created (success : Bool)
  | status (code : Int)
  /-- A null-terminated string, or a null pointer. -/
  | string (units : Option (List UInt16))
  /-- A string with its length in units, or a null pointer. -/
  | sized (text : Option String)
  deriving DecidableEq, Repr

abbrev FlatStudio := Studio Platform Rendering (List UInt8) CallbackId

structure Flat where
  studio : FlatStudio
  instances : List (Nat × Instance)

namespace Flat

def ofPlatform (p : Platform) : Flat := ⟨⟨p, []⟩, []⟩

/-- The most bytes that a callback can be told of: their count is a signed 32-bit word. -/
def callbackLimit : Nat := 2147483647

def deliver (id : CallbackId) (audio : List UInt8) (markers : List Marker) : FlatEvent :=
  if audio.length ≤ callbackLimit then .callback id audio (Markers.toWide markers)
  else .errorLog ("Dropping " ++ toString audio.length ++
    " bytes of audio, too many for the callback")

def showHappening : Happening PlatformEvent CallbackId → List FlatEvent
  | .engine event => [.platform event]
  | .ended id (.delivered audio markers) => [deliver id audio markers]
  | .ended _ fate => fate.warning?.toList.map .warn

def instance? (f : Flat) (handle : Nat) : Option Instance := f.instances.lookup handle

def without (f : Flat) (handle : Nat) : Flat :=
  { f with instances := f.instances.filter (·.1 != handle) }

def put (f : Flat) (handle : Nat) (i : Instance) : Flat :=
  { f with instances := (handle, i) :: (f.without handle).instances }

def onPlatform {α : Type} (f : Flat) (call : Platform.Call α) :
    Flat × List FlatEvent × Except Error α :=
  let reply := call.run f.studio.world
  ({ f with studio := { f.studio with world := reply.world } }, reply.events.map .platform,
    reply.result)

def onStation {α : Type} (f : Flat) (handle : Nat) (i : Instance) (call : Station.Call α) :
    Flat × List FlatEvent × Except Error α :=
  let reply := call.run ⟨f.studio.world, i.synthesizer⟩
  let f' := f.put handle { i with synthesizer := reply.world.synthesizer }
  ({ f' with studio := { f.studio with world := reply.world.platform } },
    reply.events.map .platform, reply.result)

/-- Makes an instance under a handle. One that was there before is terminated afterwards. -/
def create (f : Flat) (handle : Nat) : Flat × List FlatEvent × FlatResult :=
  match f.onPlatform Synthesizer.create with
  | (f', events, .error e) =>
    (f', events ++ [.errorLog ("Could not create the speech synthesizer: " ++ e.message)],
      .created false)
  | (f', events, .ok synthesizer) =>
    let released := (f.instance? handle).toList.map fun _ =>
      FlatEvent.platform .synthesizerReleased
    (f'.put handle ⟨synthesizer, none⟩, events ++ released, .created true)

def terminate (f : Flat) (handle : Nat) : Flat × List FlatEvent × FlatResult :=
  match f.instance? handle with
  | none => (f, [], .none)
  | some _ => (f.without handle, [.platform .synthesizerReleased], .none)

def speak (f : Flat) (handle : Nat) (text : Option (List UInt16)) :
    Flat × List FlatEvent × FlatResult :=
  match f.instance? handle, text with
  | some i, some units =>
    match i.callback with
    | none => (f, [.warn "Speech submitted before a callback was registered"], .status (-1))
    | some callback =>
      let moved := f.studio.submit (Utf16.untilZero units) callback
      let events := moved.shown.flatMap showHappening
      match moved.answer with
      | .ok () => ({ f with studio := moved.studio }, events, .status 0)
      | .error e =>
        ({ f with studio := moved.studio },
          events ++ [.warn ("Could not submit speech: " ++ e.message)], .status (-1))
  | _, _ => (f, [], .status (-1))

def allocateListing (f : Flat) (voices : List Voice) : Flat × List FlatEvent × FlatResult :=
  match f.onPlatform (Platform.failure? .allocateString) with
  | (f', events, .ok none) => (f', events, .sized (some (Voice.listing voices)))
  | (f', events, _) =>
    (f', events ++ [.errorLog ("Could not allocate the voice list: " ++
      codeText Platform.outOfMemory)], .sized none)

def voices (f : Flat) (handle : Nat) : Flat × List FlatEvent × FlatResult :=
  match f.instance? handle with
  | none => (f, [], .sized none)
  | some _ =>
    match f.onPlatform Platform.listVoices with
    | (f', events, .error e) =>
      (f', events ++ [.warn ("Could not list voices: " ++ e.message)], .sized none)
    | (f', events, .ok []) => (f', events ++ [.warn "No voices are installed"], .sized none)
    | (f', events, .ok (v :: vs)) =>
      let (f'', more, result) := f'.allocateListing (v :: vs)
      (f'', events ++ more, result)

def currentVoice (f : Flat) (handle : Nat) (part : Voice → String) :
    Flat × List FlatEvent × FlatResult :=
  match f.instance? handle with
  | none => (f, [], .string none)
  | some i =>
    match f.onStation handle i Station.currentVoice with
    | (f', events, .ok v) => (f', events, .string (some (Utf16.terminated (part v))))
    | (f', events, .error e) =>
      (f', events ++ [.warn ("Could not query the current voice: " ++ e.message)], .string none)

def voiceChoice (index : Int) : Station.Call Unit :=
  if 0 ≤ index then Station.setVoice index.toNat
  else Act.fail (.engine ("negative voice index " ++ toString index))

def setVoice (f : Flat) (handle : Nat) (index : Int) : Flat × List FlatEvent × FlatResult :=
  match f.instance? handle with
  | none => (f, [], .none)
  | some i =>
    match f.onStation handle i (voiceChoice index) with
    | (f', events, .ok ()) => (f', events, .none)
    | (f', events, .error e) =>
      (f', events ++ [.warn ("Could not select voice " ++ toString index ++ ": " ++ e.message)],
        .none)

def setProperty (f : Flat) (handle : Nat) (name : Option (List UInt16)) (value : Int) :
    Flat × List FlatEvent × FlatResult :=
  match f.instance? handle, name with
  | some i, some units =>
    let (f', events, _) := f.onStation handle i (Station.setProperty (Utf16.untilZero units) value)
    (f', events, .none)
  | _, _ => (f, [], .none)

def setCallback (f : Flat) (handle : Nat) (callback : Option CallbackId) : Flat :=
  match f.instance? handle with
  | none => f
  | some i => f.put handle { i with callback }

def perform (f : Flat) (handle : Nat) : FlatCall → Flat × List FlatEvent × FlatResult
  | .create => f.create handle
  | .terminate => f.terminate handle
  | .setCallback callback => (f.setCallback handle callback, [], .none)
  | .speak text => f.speak handle text
  | .voices => f.voices handle
  | .currentVoiceId => f.currentVoice handle Voice.id
  | .currentVoiceLanguage => f.currentVoice handle Voice.language
  | .setVoice index => f.setVoice handle index
  | .setProperty name value => f.setProperty handle name value

def complete (f : Flat) (index : Nat) : Flat × List FlatEvent × Bool :=
  let moved := f.studio.complete index
  ({ f with studio := moved.studio }, moved.shown.flatMap showHappening, moved.answer)

def completeAll (f : Flat) : Flat × List FlatEvent × Nat :=
  let moved := f.studio.completeAll
  ({ f with studio := moved.studio }, moved.shown.flatMap showHappening, moved.answer)

def plan (f : Flat) (change : Platform → Platform) : Flat :=
  { f with studio := { f.studio with world := change f.studio.world } }

end Flat

end SpeechBridge

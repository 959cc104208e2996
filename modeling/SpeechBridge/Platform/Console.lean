import SpeechBridge.Driver.State
import SpeechBridge.Engine.Recorder
import SpeechBridge.Platform.Apartment
import SpeechBridge.Voice.Installed

/-!
# A console on the platform

A console keeps at most one synthesizer, records what becomes of the utterances that it submits,
and can tell which installed voices are usable.
-/
namespace SpeechBridge

inductive ConsoleCall where
  | create
  | drop
  | voices
  | currentVoice
  | setVoice (index : Nat)
  | setProperty (name : String) (value : Int)
  | speak (document : String)
  | isVoiceValid (id : String)
  | join
  | leave
  | driverVoices (onlyValid : Bool)
  | complete (index : Nat)
  | completeAll
  deriving DecidableEq, Repr

structure Console where
  installation : Installation
  recorder : Recorder Platform Rendering (List UInt8)
  synthesizer : Option Synthesizer

namespace Console

def ofPlatform (installation : Installation) (p : Platform) : Console :=
  ⟨installation, .ofWorld p, none⟩

abbrev Result := Console × List (RecorderEvent PlatformEvent) × Option Answer

def platform (c : Console) : Platform := c.recorder.studio.world

def withPlatform (c : Console) (p : Platform) : Console :=
  { c with recorder := { c.recorder with studio := { c.recorder.studio with world := p } } }

def onPlatform (c : Console) (call : Platform.Call Value) : Result :=
  let (recorder, events, answer) := c.recorder.act call
  ({ c with recorder }, events, some answer)

def onStation (c : Console) (call : Station.Call Value) : Result :=
  match c.synthesizer with
  | none => (c, [], none)
  | some synthesizer =>
    let reply := call.run ⟨c.platform, synthesizer⟩
    ({ c.withPlatform reply.world.platform with synthesizer := some reply.world.synthesizer },
      reply.events.map .engine, some (.ofExcept reply.result))

def create (c : Console) : Result :=
  let reply := Synthesizer.create.run c.platform
  match reply.result with
  | .error e => (c.withPlatform reply.world, reply.events.map .engine, some (.refused e))
  | .ok synthesizer =>
    ({ c.withPlatform reply.world with synthesizer := some synthesizer },
      reply.events.map .engine ++
        c.synthesizer.toList.map (fun _ => .engine .synthesizerReleased),
      some (.returned .done))

def drop (c : Console) : Result :=
  ({ c with synthesizer := none },
    c.synthesizer.toList.map (fun _ => .engine .synthesizerReleased),
    some (.returned (.flag c.synthesizer.isSome)))

def driverConfig (c : Console) : DriverConfig := ⟨.standard, 44, c.installation.isValid⟩

def ofNote : DriverNote PlatformEvent → RecorderEvent PlatformEvent
  | .engine event => .engine event
  | .warn text => .warn text

def driverVoices (c : Console) (onlyValid : Bool) : Result :=
  let created := Synthesizer.create.run c.platform
  match created.result with
  | .error e => (c.withPlatform created.world, created.events.map .engine, some (.refused e))
  | .ok synthesizer =>
    let (station, notes) := Driver.start.introduce (⟨created.world, synthesizer⟩ : Station)
    let listed := (Driver.voices c.driverConfig onlyValid : Station.Call (List Voice)).run station
    (c.withPlatform listed.world.platform,
      created.events.map .engine ++ notes.map ofNote ++ listed.events.map .engine ++
        [.engine .synthesizerReleased],
      some (.ofExcept (listed.result.map Value.voices)))

def perform (c : Console) : ConsoleCall → Result
  | .create => c.create
  | .drop => c.drop
  | .voices => c.onStation (do return .voices (← Station.listVoices))
  | .currentVoice => c.onStation (do return .voice (← Station.currentVoice))
  | .setVoice index => c.onStation (do Station.setVoice index; return .done)
  | .setProperty name value => c.onStation (do Station.setProperty name value; return .done)
  | .speak document =>
    match c.synthesizer with
    | none => (c, [], none)
    | some _ =>
      let (recorder, events, answer) := c.recorder.speak document .full
      ({ c with recorder }, events, some answer)
  | .isVoiceValid id => (c, [], some (.returned (.flag (c.installation.isValid id))))
  | .join => c.onPlatform (do Apartment.join; return .done)
  | .leave => c.onPlatform (do Apartment.leave; return .done)
  | .driverVoices onlyValid => c.driverVoices onlyValid
  | .complete index =>
    let (recorder, events, answer) := c.recorder.complete index
    ({ c with recorder }, events, some answer)
  | .completeAll =>
    let (recorder, events, answer) := c.recorder.completeAll
    ({ c with recorder }, events, some answer)

def plan (c : Console) (change : Platform → Platform) : Console :=
  c.withPlatform (change c.platform)

end Console

end SpeechBridge

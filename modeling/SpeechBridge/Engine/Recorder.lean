import SpeechBridge.Engine.Direction
import SpeechBridge.Engine.Studio

/-!
# Numbered sinks

A recorder numbers the sinks of the utterances it submits, from one, and records what becomes of
each. A full sink shows its delivery or failure and that it is dropped afterwards; a closure
shows its delivery only.
-/
namespace SpeechBridge

inductive Sink where
  | full (n : Nat)
  | closure (n : Nat)
  deriving DecidableEq, Repr

inductive RecorderEvent (E : Type) where
  | engine (event : E)
  | warn (text : String)
  | delivered (n : Nat) (audio : List UInt8) (markers : List Marker)
  | failed (n : Nat) (e : Error)
  | dropped (n : Nat)
  | closure (n : Nat) (audio : List UInt8) (markers : List Marker)
  deriving DecidableEq, Repr

def Sink.ending {E : Type} : Sink → Fate → List (RecorderEvent E)
  | .full n, .delivered audio markers => [.delivered n audio markers, .dropped n]
  | .full n, .failed e => [.failed n e, .dropped n]
  | .full n, .dropped => [.dropped n]
  | .closure n, .delivered audio markers => [.closure n audio markers]
  | .closure _, _ => []

def Happening.recorderEvents {E : Type} : Happening E Sink → List (RecorderEvent E)
  | .engine event => [.engine event]
  | .ended sink fate => (fate.warning?.toList.map .warn) ++ sink.ending fate

structure Recorder (W Stream Audio : Type) where
  studio : Studio W Stream Audio Sink
  next : Nat

namespace Recorder

variable {W E Stream Audio : Type} [Renderer W E Stream Audio]

def ofWorld (w : W) : Recorder W Stream Audio := ⟨⟨w, []⟩, 1⟩

/-- Submits a document with the next sink. A sink whose submission is rejected is dropped. -/
def speak (r : Recorder W Stream Audio) (document : String) (sink : Nat → Sink) :
    Recorder W Stream Audio × List (RecorderEvent E) × Answer :=
  let s := sink r.next
  let moved := r.studio.submit document s
  let events := moved.shown.flatMap Happening.recorderEvents
  match moved.answer with
  | .ok () => (⟨moved.studio, r.next + 1⟩, events, .returned .done)
  | .error e => (⟨moved.studio, r.next + 1⟩, events ++ s.ending .dropped, .refused e)

def complete (r : Recorder W Stream Audio) (index : Nat) :
    Recorder W Stream Audio × List (RecorderEvent E) × Answer :=
  let moved := r.studio.complete index
  (⟨moved.studio, r.next⟩, moved.shown.flatMap Happening.recorderEvents,
    .returned (.flag moved.answer))

def completeAll (r : Recorder W Stream Audio) :
    Recorder W Stream Audio × List (RecorderEvent E) × Answer :=
  let moved := r.studio.completeAll
  (⟨moved.studio, r.next⟩, moved.shown.flatMap Happening.recorderEvents,
    .returned (.count moved.answer))

def act (r : Recorder W Stream Audio) (call : Act W E Value) :
    Recorder W Stream Audio × List (RecorderEvent E) × Answer :=
  let reply := call.run r.studio.world
  (⟨⟨reply.world, r.studio.parked⟩, r.next⟩, reply.events.map .engine, .ofExcept reply.result)

end Recorder

inductive RecorderCall where
  | speak (document : String)
  | speakClosure (document : String)
  | complete (index : Nat)
  | completeAll
  | direct (d : Direction)
  deriving DecidableEq, Repr

abbrev ScriptedRecorder := Recorder ScriptedEngine Outcome Outcome

def ScriptedRecorder.perform (r : ScriptedRecorder) :
    RecorderCall → ScriptedRecorder × List (RecorderEvent EngineEvent) × Answer
  | .speak document => r.speak document .full
  | .speakClosure document => r.speak document .closure
  | .complete index => r.complete index
  | .completeAll => r.completeAll
  | .direct d => r.act d.act

end SpeechBridge

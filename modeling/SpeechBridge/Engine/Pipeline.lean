import SpeechBridge.Engine.Basic

/-!
# The life of an utterance

A submitted document is synthesized, its markers are collected, the stream is read, and the
audio is delivered. An utterance carries its sink from stage to stage. It ends once: delivered,
failed at the first stage that fails, or dropped when an operation never reports.
-/
namespace SpeechBridge

inductive Fate where
  | delivered (audio : List UInt8) (markers : List Marker)
  | failed (e : Error)
  | dropped
  deriving DecidableEq, Repr

def Fate.warning? : Fate → Option String
  | .failed e => some ("Speech synthesis failed: " ++ e.message)
  | _ => none

/-- A parked continuation with the reports its operation will make. -/
inductive Job (Stream Audio S : Type) where
  | synthesis (reports : List (Except Error Stream)) (sink : S)
  | read (reports : List (Except Error Audio)) (markers : List Marker) (sink : S)

/-- An utterance waits for the engine, or has ended. -/
inductive Progress (Stream Audio S : Type) where
  | waiting (job : Job Stream Audio S)
  | ended (sink : S) (fate : Fate)

structure Advance (W E Stream Audio S : Type) where
  world : W
  events : List E
  progress : Progress Stream Audio S

namespace Pipeline

variable {W E Stream Audio S : Type} [Renderer W E Stream Audio]

def onAudio (sink : S) (markers : List Marker) (audio : Except Error Audio) (w : W) :
    Advance W E Stream Audio S :=
  let reply := ((do Renderer.bytes (← Act.ofExcept audio)) : Act W E (List UInt8)).run w
  match reply.result with
  | .ok bytes => ⟨reply.world, reply.events, .ended sink (.delivered bytes markers)⟩
  | .error e => ⟨reply.world, reply.events, .ended sink (.failed e)⟩

/-- What the reports of a read lead to: the first one counts. -/
def onReadReports (sink : S) (markers : List Marker) (reports : List (Except Error Audio)) (w : W) :
    Advance W E Stream Audio S :=
  match (Slot.full sink).calls reports with
  | [] => ⟨w, [], .ended sink .dropped⟩
  | call :: _ => onAudio call.continuation markers call.outcome w

def collect (stream : Except Error Stream) : Act W E (List Marker × Operation Audio) := do
  let stream ← Act.ofExcept stream
  let markers ← Renderer.markers stream
  let read ← Renderer.readToEnd stream
  return (markers, read)

def onStream (sink : S) (stream : Except Error Stream) (w : W) : Advance W E Stream Audio S :=
  let reply := (collect stream).run w
  match reply.result with
  | .error e => ⟨reply.world, reply.events, .ended sink (.failed e)⟩
  | .ok (markers, .parked reports) =>
    ⟨reply.world, reply.events, .waiting (.read reports markers sink)⟩
  | .ok (markers, .atOnce reports) =>
    let last := onReadReports sink markers reports reply.world
    ⟨last.world, reply.events ++ last.events, last.progress⟩

/-- What the reports of a synthesis lead to: the first one counts. -/
def onSynthesisReports (sink : S) (reports : List (Except Error Stream)) (w : W) :
    Advance W E Stream Audio S :=
  match (Slot.full sink).calls reports with
  | [] => ⟨w, [], .ended sink .dropped⟩
  | call :: _ => onStream call.continuation call.outcome w

def await (sink : S) : Operation Stream → Act W E (Progress Stream Audio S)
  | .parked reports => pure (.waiting (.synthesis reports sink))
  | .atOnce reports => fun w =>
    let next := onSynthesisReports sink reports w
    ⟨next.world, next.events, .ok next.progress⟩

/-- Submits a document. On an error the sink is not called. -/
def submit (document : String) (sink : S) : Act W E (Progress Stream Audio S) := do
  await sink (← Renderer.synthesize document)

def resume (w : W) : Job Stream Audio S → Advance W E Stream Audio S
  | .synthesis reports sink => onSynthesisReports sink reports w
  | .read reports markers sink => onReadReports sink markers reports w

end Pipeline

end SpeechBridge

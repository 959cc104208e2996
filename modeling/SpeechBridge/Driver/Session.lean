import SpeechBridge.Driver.Playback
import SpeechBridge.Driver.State
import SpeechBridge.Engine.Direction
import SpeechBridge.Engine.Pipeline

/-!
# Runs of a driver

A session is a driver on a scripted engine together with its client. Calls nest: an engine that
reports at once delivers inside the call that submitted, and the client may call back from inside
any output call. What is still to be done is kept as an agenda, innermost task first, and one
step performs its first task. The client's calls from output calls are given in advance as
hooks, each for one occurrence of one kind of output call.
-/
namespace SpeechBridge

inductive OutputKind where
  | feed | index | stop | idle
  deriving DecidableEq, Repr

def OutputCall.kind : OutputCall → OutputKind
  | .feed _ => .feed
  | .index _ => .index
  | .stop => .stop
  | .idle => .idle

inductive DriverCall where
  | speak (items : List SpeechItem)
  | cancel
  | setRate (percent : Nat)
  | setPitch (percent : Nat)
  | setVolume (percent : Nat)
  | voices (onlyValid : Bool)
  | voice
  | language
  | setVoice (id : String)
  | complete (index : Nat)
  | completeAll
  | direct (d : Direction)
  deriving DecidableEq, Repr

structure Hook where
  on : OutputKind
  nth : Nat
  call : DriverCall
  deriving DecidableEq, Repr

/-- Who waits for an answer: the client outside, or a hook inside an output call. -/
inductive Caller where
  | outside
  | hook
  deriving DecidableEq, Repr

inductive Entry where
  | engine (event : EngineEvent)
  | warn (text : String)
  | output (call : OutputCall)
  | hook (answer : Answer)
  deriving DecidableEq, Repr

def Entry.ofNote : DriverNote EngineEvent → Entry
  | .engine event => .engine event
  | .warn text => .warn text

/-- The sink of a driver is always its own, so jobs carry none. -/
abbrev DriverJob := Job Outcome Outcome Unit

inductive Task where
  | call (caller : Caller) (call : DriverCall)
  | answer (caller : Caller) (answer : Answer)
  | drain (caller : Caller) (count : Nat)
  | output (call : OutputCall)
  | land (fate : Fate)
  | play (rest : Playback)
  | advance

structure Session where
  config : DriverConfig
  /-- Without it the output keeps quiet about being idle. -/
  reportsIdle : Bool
  driver : Driver
  engine : ScriptedEngine
  parked : List DriverJob
  hooks : List Hook
  made : List OutputKind
  agenda : List Task
  journal : List Entry
  result : Option Answer

namespace Session

def log (s : Session) (entries : List Entry) : Session :=
  { s with journal := s.journal ++ entries }

def push (s : Session) (tasks : List Task) : Session := { s with agenda := tasks ++ s.agenda }

def engineCall {α : Type} (s : Session) (act : Act ScriptedEngine EngineEvent α) :
    Session × Except Error α :=
  let reply := act.run s.engine
  ({ s with engine := reply.world }.log (reply.events.map .engine), reply.result)

/-- Parks the utterance of the driver, or puts its end on the agenda. -/
def place (s : Session) : Progress Outcome Outcome Unit → Session
  | .waiting job => { s with parked := s.parked ++ [job] }
  | .ended () fate => s.push [.land fate]

def resume (s : Session) (job : DriverJob) : Session :=
  let advance := Pipeline.resume s.engine job
  ({ s with engine := advance.world }.log (advance.events.map .engine)).place advance.progress

def answer (s : Session) (caller : Caller) (a : Answer) : Session := s.push [.answer caller a]

def updateDriver (s : Session) (f : Driver → Driver) : Session := { s with driver := f s.driver }

def forward {α : Type} (s : Session) (caller : Caller) (act : Act ScriptedEngine EngineEvent α)
    (value : α → Value) : Session :=
  let (s, result) := s.engineCall act
  s.answer caller (match result with
    | .ok a => .returned (value a)
    | .error e => .refused e)

/-- Queues the document of a sequence, or submits it if nothing is in progress. -/
def speak (s : Session) (caller : Caller) (items : List SpeechItem) : Session :=
  match s.engineCall Driver.language with
  | (s, .error e) => s.answer caller (.refused e)
  | (s, .ok language) =>
    let document := s.driver.document language items
    if s.driver.processing then
      (s.updateDriver fun d => { d with pending := d.pending ++ [document] }).answer caller
        (.returned .done)
    else
      let s := s.updateDriver fun d => { d with processing := true, cancelled := false }
      match s.engineCall (Pipeline.submit document ()) with
      | (s, .ok progress) => (s.answer caller (.returned .done)).place progress
      | (s, .error e) =>
        (s.updateDriver fun d => { d with processing := false }).answer caller (.refused e)

def cancel (s : Session) (caller : Caller) : Session :=
  (s.updateDriver fun d => { d with cancelled := true, pending := [] }).push
    [.output .stop, .answer caller (.returned .done)]

/-- Submits the first queued document that the engine accepts; without one the driver is idle. -/
def advanceThrough (s : Session) : List String → Session
  | [] =>
    (s.updateDriver fun d => { d with pending := [], processing := false }).push [.output .idle]
  | document :: rest =>
    let s := s.updateDriver fun d => { d with pending := rest, cancelled := false }
    match s.engineCall (Pipeline.submit document ()) with
    | (s, .ok progress) => s.place progress
    | (s, .error e) =>
      advanceThrough (s.log [.warn ("Could not submit queued speech: " ++ e.message)]) rest

def advance (s : Session) : Session := s.advanceThrough s.driver.pending

def fires (s : Session) (call : OutputCall) (h : Hook) : Bool :=
  h.on == call.kind && h.nth == (s.made.filter (· == call.kind)).length + 1

def shown (s : Session) (call : OutputCall) : List Entry :=
  if call == .idle && !s.reportsIdle then [] else [.output call]

def output (s : Session) (call : OutputCall) : Session :=
  ({ s with
    made := call.kind :: s.made
    hooks := s.hooks.filter fun h => !s.fires call h }.log (s.shown call)).push
    ((s.hooks.filter (s.fires call)).map fun (h : Hook) => .call .hook h.call)

def land (s : Session) : Fate → Session
  | .delivered audio markers =>
    s.push [.play (.start s.config.format (Driver.playable s.config audio) markers)]
  | .failed e => (s.log [.warn ("Speech synthesis failed: " ++ e.message)]).push [.advance]
  | .dropped => s

def call (s : Session) (caller : Caller) : DriverCall → Session
  | .speak items => s.speak caller items
  | .cancel => s.cancel caller
  | .setRate percent =>
    let s := s.updateDriver (·.setRate percent)
    s.forward caller s.driver.sendRate fun () => .done
  | .setPitch percent =>
    let s := s.updateDriver (·.setPitch percent)
    s.forward caller s.driver.sendPitch fun () => .done
  | .setVolume percent =>
    (s.updateDriver (·.setVolume percent)).answer caller (.returned .done)
  | .voices onlyValid => s.forward caller (Driver.voices s.config onlyValid) .voices
  | .voice => s.forward caller Driver.voiceId .voiceId
  | .language => s.forward caller Driver.language .language
  | .setVoice id => s.forward caller (Driver.setVoice id) fun () => .done
  | .complete index =>
    match s.parked[index]? with
    | none => s.answer caller (.returned (.flag false))
    | some job =>
      ({ s with parked := s.parked.eraseIdx index }.answer caller
        (.returned (.flag true))).resume job
  | .completeAll => s.push [.drain caller 0]
  | .direct d => s.forward caller d.act id

def perform (s : Session) : Task → Session
  | .call caller c => s.call caller c
  | .answer .outside a => { s with result := some a }
  | .answer .hook a => s.log [.hook a]
  | .drain caller count =>
    match s.parked with
    | [] => s.answer caller (.returned (.count count))
    | job :: rest => ({ s with parked := rest }.push [.drain caller (count + 1)]).resume job
  | .output c => s.output c
  | .land fate => s.land fate
  | .play rest =>
    match rest.next s.driver.cancelled with
    | some (c, rest) => s.push [.output c, .play rest]
    | none => s.push [.advance]
  | .advance => s.advance

def step (s : Session) : Session :=
  match s.agenda with
  | [] => s
  | task :: rest => { s with agenda := rest }.perform task

def run : Nat → Session → Session
  | 0, s => s
  | n + 1, s => if s.agenda.isEmpty then s else run n s.step

end Session

namespace Outcome

def weight (o : Outcome) : Nat := 5 * o.markers.length

end Outcome

def ScriptedEngine.scriptWeight (s : ScriptedEngine) : Nat := total Outcome.weight s.script

namespace Job

def weightOf : List (Except Error Outcome) → Nat
  | .ok o :: _ => o.weight
  | _ => 0

def weight : DriverJob → Nat
  | .synthesis reports _ => 11 + weightOf reports
  | .read _ markers _ => 10 + 5 * markers.length

end Job

def Fate.weight : Fate → Nat
  | .delivered _ markers => 9 + 5 * markers.length
  | _ => 9

def Progress.weight : Progress Outcome Outcome Unit → Nat
  | .waiting job => job.weight
  | .ended _ fate => fate.weight

def DriverCall.weight : DriverCall → Nat
  | .speak _ => 13
  | .direct (.script o) => 2 + o.weight
  | _ => 3

namespace Task

def weight : Task → Nat
  | .call _ c => c.weight
  | .answer _ _ => 1
  | .drain _ _ => 2
  | .output _ => 1
  | .land fate => fate.weight
  | .play rest => 3 + rest.weight
  | .advance => 2

end Task

namespace Session

/-- Every task, job, queued document and hook weighs as much as it can still cause, and a script
weighs the markers that it may bring into play, so that each step makes a session lighter. -/
def weight (s : Session) : Nat :=
  total Task.weight s.agenda + total Job.weight s.parked + 11 * s.driver.pending.length +
    total (·.call.weight) s.hooks + s.engine.scriptWeight

/-- Steps until nothing is left to do. -/
def settle (s : Session) : Session := s.run s.weight

def start (config : DriverConfig) (reportsIdle : Bool) (hooks : List Hook)
    (engine : ScriptedEngine) : Session :=
  let (engine, notes) := Driver.start.introduce engine
  { config, reportsIdle, driver := .start, engine, parked := [], hooks, made := [], agenda := [],
    journal := notes.map .ofNote, result := none }

/-- A call of the client, with everything that it leads to. -/
def request (s : Session) (c : DriverCall) : Session :=
  settle { s with agenda := s.agenda ++ [.call .outside c], result := none }

end Session

end SpeechBridge

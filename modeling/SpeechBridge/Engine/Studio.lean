import SpeechBridge.Engine.Pipeline
import SpeechBridge.Number.Total

/-!
# Utterances in progress

An engine together with the jobs it has parked, oldest first. Jobs may be run in any order;
a job that leads to another one puts it at the end.
-/
namespace SpeechBridge

structure Studio (W Stream Audio S : Type) where
  world : W
  parked : List (Job Stream Audio S)

/-- What a step in the studio shows: events of the engine, and utterances that end. -/
inductive Happening (E S : Type) where
  | engine (event : E)
  | ended (sink : S) (fate : Fate)
  deriving DecidableEq, Repr

namespace Job

variable {Stream Audio S : Type}

def stages : Job Stream Audio S → Nat
  | .synthesis _ _ => 2
  | .read _ _ _ => 1

end Job

structure Moved (W E Stream Audio S α : Type) where
  studio : Studio W Stream Audio S
  shown : List (Happening E S)
  answer : α

namespace Studio

variable {W E Stream Audio S : Type} [Renderer W E Stream Audio]

def place (s : Studio W Stream Audio S) (w : W) : Progress Stream Audio S →
    Studio W Stream Audio S × List (Happening E S)
  | .waiting job => (⟨w, s.parked ++ [job]⟩, [])
  | .ended sink fate => (⟨w, s.parked⟩, [.ended sink fate])

def submit (s : Studio W Stream Audio S) (document : String) (sink : S) :
    Moved W E Stream Audio S (Except Error Unit) :=
  let reply := (Pipeline.submit document sink).run s.world
  let events := reply.events.map Happening.engine
  match reply.result with
  | .error e => ⟨⟨reply.world, s.parked⟩, events, .error e⟩
  | .ok progress =>
    let (studio, ends) := s.place reply.world progress
    ⟨studio, events ++ ends, .ok ()⟩

def resume (s : Studio W Stream Audio S) (job : Job Stream Audio S) :
    Studio W Stream Audio S × List (Happening E S) :=
  let advance := Pipeline.resume s.world job
  let (studio, ends) := s.place advance.world advance.progress
  (studio, advance.events.map Happening.engine ++ ends)

def complete (s : Studio W Stream Audio S) (index : Nat) : Moved W E Stream Audio S Bool :=
  match s.parked[index]? with
  | none => ⟨s, [], false⟩
  | some job =>
    let (studio, shown) := { s with parked := s.parked.eraseIdx index }.resume job
    ⟨studio, shown, true⟩

/-- Runs the oldest job until none is left, at most as often as given, and counts. -/
def drain : Nat → Studio W Stream Audio S → Moved W E Stream Audio S Nat
  | 0, s => ⟨s, [], 0⟩
  | n + 1, s =>
    match s.parked with
    | [] => ⟨s, [], 0⟩
    | job :: rest =>
      let (studio, shown) := { s with parked := rest }.resume job
      let later := drain n studio
      ⟨later.studio, shown ++ later.shown, later.answer + 1⟩

def work (s : Studio W Stream Audio S) : Nat := total Job.stages s.parked

def completeAll (s : Studio W Stream Audio S) : Moved W E Stream Audio S Nat := drain s.work s

end Studio

end SpeechBridge

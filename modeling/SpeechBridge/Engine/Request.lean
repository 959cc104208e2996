import SpeechBridge.Engine.Direction
import SpeechBridge.Engine.Studio

/-!
# Requests

A request renders one document and is asked for its outcome until it has one. It does nothing
before it is first asked; then it is submitted under a ticket, and the reply to the ticket is
its outcome. A reply stays away as long as the utterance is in progress; a sink that is dropped
replies that the speech was abandoned. Requests can be dropped at any time, their utterances
run on.
-/
namespace SpeechBridge

structure Utterance where
  audio : List UInt8
  markers : List Marker
  deriving DecidableEq, Repr

inductive Request where
  | fresh (document : String)
  | submitted (ticket : Nat)
  deriving DecidableEq, Repr

inductive Poll where
  | absent
  | pending
  | ready (outcome : Except Error Utterance)

inductive RequestEvent (E : Type) where
  | engine (event : E)
  | warn (text : String)
  deriving DecidableEq, Repr

def Fate.reply : Fate → Except Error Utterance
  | .delivered audio markers => .ok ⟨audio, markers⟩
  | .failed e => .error e
  | .dropped => .error .abandoned

structure Requests (W Stream Audio : Type) where
  studio : Studio W Stream Audio Nat
  requests : List (Nat × Request)
  replies : List (Nat × Except Error Utterance)
  nextTicket : Nat

namespace Requests

variable {W E Stream Audio : Type} [Renderer W E Stream Audio]

def ofWorld (w : W) : Requests W Stream Audio := ⟨⟨w, []⟩, [], [], 1⟩

def repliesOf (shown : List (Happening E Nat)) : List (Nat × Except Error Utterance) :=
  shown.filterMap fun
    | .ended ticket fate => some (ticket, fate.reply)
    | .engine _ => none

def eventsOf (shown : List (Happening E Nat)) : List (RequestEvent E) :=
  shown.flatMap fun
    | .engine event => [.engine event]
    | .ended _ fate => fate.warning?.toList.map .warn

def after {α : Type} (r : Requests W Stream Audio) (m : Moved W E Stream Audio Nat α) :
    Requests W Stream Audio :=
  { r with studio := m.studio, replies := r.replies ++ repliesOf m.shown }

def forget (r : Requests W Stream Audio) (id : Nat) : Requests W Stream Audio :=
  { r with requests := r.requests.filter (·.1 != id) }

def store (r : Requests W Stream Audio) (id : Nat) (request : Request) : Requests W Stream Audio :=
  { r with requests := (r.forget id).requests ++ [(id, request)] }

def create (r : Requests W Stream Audio) (id : Nat) (document : String) :
    Requests W Stream Audio :=
  r.store id (.fresh document)

def drop (r : Requests W Stream Audio) (id : Nat) : Requests W Stream Audio × Bool :=
  (r.forget id, (r.requests.lookup id).isSome)

def settle (r : Requests W Stream Audio) (id ticket : Nat) : Requests W Stream Audio × Poll :=
  match r.replies.lookup ticket with
  | some outcome => (r.forget id, .ready outcome)
  | none => (r.store id (.submitted ticket), .pending)

def poll (r : Requests W Stream Audio) (id : Nat) :
    Requests W Stream Audio × List (RequestEvent E) × Poll :=
  match r.requests.lookup id with
  | none => (r, [], .absent)
  | some (.submitted ticket) =>
    let (r', outcome) := r.settle id ticket
    (r', [], outcome)
  | some (.fresh document) =>
    let ticket := r.nextTicket
    let moved := r.studio.submit document ticket
    let r' := { r.after moved with nextTicket := ticket + 1 }
    match moved.answer with
    | .error e => (r'.forget id, eventsOf moved.shown, .ready (.error e))
    | .ok () =>
      let (r'', outcome) := r'.settle id ticket
      (r'', eventsOf moved.shown, outcome)

def complete (r : Requests W Stream Audio) (index : Nat) :
    Requests W Stream Audio × List (RequestEvent E) × Bool :=
  let moved := r.studio.complete index
  (r.after moved, eventsOf moved.shown, moved.answer)

def completeAll (r : Requests W Stream Audio) :
    Requests W Stream Audio × List (RequestEvent E) × Nat :=
  let moved := r.studio.completeAll
  (r.after moved, eventsOf moved.shown, moved.answer)

def act (r : Requests W Stream Audio) (call : Act W E Value) :
    Requests W Stream Audio × List (RequestEvent E) × Answer :=
  let reply := call.run r.studio.world
  ({ r with studio := ⟨reply.world, r.studio.parked⟩ }, reply.events.map .engine,
    .ofExcept reply.result)

def ask (r : Requests W Stream Audio) (document : String) :
    Requests W Stream Audio × List (RequestEvent E) × Poll :=
  (r.create 0 document).poll 0

end Requests

end SpeechBridge

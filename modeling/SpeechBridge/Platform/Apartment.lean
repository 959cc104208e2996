import SpeechBridge.Engine.Request
import SpeechBridge.Number.Total
import SpeechBridge.Platform.Synthesizer

/-!
# The apartment

Threads that use the platform join its multithreaded apartment and leave it in the end. The
worker threads of a runtime do both on their own: every worker joins when it starts, or warns that
it could not, and leaves when it stops.
-/
namespace SpeechBridge

namespace Apartment

def multithreaded : Nat := 1

def join : Platform.Call Unit := do
  Platform.pass .joinApartment
  Act.note (.joined multithreaded)

def leave : Platform.Call Unit := Act.note .left

end Apartment

structure Worker where
  joined : Nat
  left : Nat
  warnings : List String
  deriving DecidableEq, Repr

namespace Worker

def idle : Worker := ⟨0, 0, []⟩

def start (w : Worker) (p : Platform) : Worker × Platform :=
  let reply := Apartment.join.run p
  match reply.result with
  | .ok () => ({ w with joined := w.joined + 1 }, reply.world)
  | .error e =>
    ({ w with warnings := w.warnings ++
        ["Runtime thread could not join the multithreaded apartment: " ++ e.message] },
      reply.world)

def stop (w : Worker) (p : Platform) : Worker × Platform :=
  ({ w with left := w.left + 1 }, (Apartment.leave.run p).world)

def startAll : Nat → Platform → List Worker × Platform
  | 0, p => ([], p)
  | n + 1, p =>
    let (w, p) := idle.start p
    let (ws, p) := startAll n p
    (w :: ws, p)

def stopAll : List Worker → Platform → List Worker × Platform
  | [], p => ([], p)
  | w :: ws, p =>
    let (w, p) := w.stop p
    let (ws, p) := stopAll ws p
    (w :: ws, p)

end Worker

abbrev PlatformRequests := Requests Platform Rendering (List UInt8)

def PlatformRequests.askAll (r : PlatformRequests) :
    List String → PlatformRequests × List (RequestEvent PlatformEvent) × List Poll
  | [] => (r, [], [])
  | document :: rest =>
    let (r, events, poll) := r.ask document
    let (r, more, polls) := PlatformRequests.askAll r rest
    (r, events ++ more, poll :: polls)

structure RuntimeReport where
  polls : List Poll
  workers : List Worker
  events : List (RequestEvent PlatformEvent)

namespace RuntimeReport

def joined (r : RuntimeReport) : Nat := total (·.joined) r.workers

def left (r : RuntimeReport) : Nat := total (·.left) r.workers

/-- The warnings of all workers, in the order of their texts. -/
def warnings (r : RuntimeReport) : List String :=
  (r.workers.flatMap (·.warnings)).mergeSort fun a b => decide (a ≤ b)

/-- Renders documents with a synthesizer of its own while the workers run. -/
def render (p : Platform) (workers : Nat) (documents : List String) : RuntimeReport :=
  let (started, p) := Worker.startAll workers p
  let created := Synthesizer.create.run p
  let events := created.events.map RequestEvent.engine
  match created.result with
  | .error e => ⟨[.ready (.error e)], (Worker.stopAll started created.world).1, events⟩
  | .ok _ =>
    let asked := PlatformRequests.askAll (.ofWorld created.world) documents
    ⟨asked.2.2, (Worker.stopAll started asked.1.studio.world).1,
      events ++ asked.2.1 ++ [.engine .synthesizerReleased]⟩

end RuntimeReport

end SpeechBridge

import SpeechBridge.Engine.Request
import SpeechBridge.Proofs.Recordings
import SpeechBridge.Proofs.Submission

/-!
# Replies that are due

A ticket is either with a parked job or has been replied to. The account lists all tickets, each
with the reply that belongs to it, be it due or given. Main statement: running a job leaves the
account as it is up to its order, and a submission that is accepted adds its own reply.
-/
namespace SpeechBridge

namespace Requests

variable {W E Stream Audio : Type}

def finish [Renderer W E Stream Audio] (r : Requests W Stream Audio) (index : Nat)
    (job : Job Stream Audio Nat) : Requests W Stream Audio × List (RequestEvent E) :=
  let (studio, shown) := { r.studio with parked := r.studio.parked.eraseIdx index }.resume job
  (r.after ⟨studio, shown, ()⟩, eventsOf shown)

def due (a : Answers Stream Audio) (job : Job Stream Audio Nat) : Nat × Except Error Utterance :=
  (job.sink, (a.jobFate job).reply)

/-- All tickets with the replies that belong to them, the ones that are due first. -/
def account (a : Answers Stream Audio) (r : Requests W Stream Audio) :
    List (Nat × Except Error Utterance) :=
  r.studio.parked.map (due a) ++ r.replies

theorem repliesOf_append (first second : List (Happening E Nat)) :
    repliesOf (first ++ second) = repliesOf first ++ repliesOf second :=
  List.filterMap_append

theorem repliesOf_engine (events : List E) :
    repliesOf (events.map Happening.engine) = [] := by
  rw [repliesOf, List.filterMap_map, List.filterMap_eq_nil_iff]
  intro e _
  rfl

variable {a : Answers Stream Audio}

theorem account_place (a : Answers Stream Audio) (s : Studio W Stream Audio Nat) (w : W)
    (p : Progress Stream Audio Nat) :
    (s.place w p : _ × List (Happening E Nat)).1.parked.map (due a) ++
        repliesOf (s.place w p : _ × List (Happening E Nat)).2 =
      s.parked.map (due a) ++ [(p.sink, (a.progressFate p).reply)] := by
  cases p with
  | waiting job =>
    rw [Studio.place, List.map_append]
    exact List.append_nil _
  | ended sink fate => rfl

theorem account_after_place (a : Answers Stream Audio) (r : Requests W Stream Audio)
    (s : Studio W Stream Audio Nat) (w : W) (p : Progress Stream Audio Nat) (events : List E) :
    ((r.after (⟨(s.place (E := E) w p).1,
        events.map Happening.engine ++ (s.place w p).2, ()⟩ : Moved _ _ _ _ _ Unit)).account a).Perm
      ((p.sink, (a.progressFate p).reply) :: (s.parked.map (due a) ++ r.replies)) := by
  have hp := account_place (E := E) a s w p
  rw [account, after, repliesOf_append, repliesOf_engine, List.nil_append]
  refine (List.Perm.append_left _ List.perm_append_comm).trans ?_
  rw [← List.append_assoc, hp, List.append_assoc, List.singleton_append]
  exact List.perm_middle

variable [Renderer W E Stream Audio]

/-- Going on with a job moves only the entry of its ticket. -/
theorem account_finish (ha : Renderer.Steady W a) {r : Requests W Stream Audio} {index : Nat}
    {job next : Job Stream Audio Nat} (hi : r.studio.parked[index]? = some job)
    (hs : next.sink = job.sink) :
    ∃ others, (r.account a).Perm (due a job :: others) ∧
      ((r.finish (E := E) index next).1.account a).Perm
        ((job.sink, (a.jobFate next).reply) :: others) := by
  obtain ⟨before, after, hl, hr⟩ := Recording.exists_split_of_getElem? hi
  refine ⟨(before ++ after).map (due a) ++ r.replies, ?_, ?_⟩
  · rw [account, hl, List.map_append, List.map_cons, List.map_append, List.append_assoc,
      List.append_assoc]
    exact List.perm_middle
  · obtain ⟨hsink, hfate⟩ := Pipeline.leadsTo_resume (E := E) ha next r.studio.world
    have hp := account_after_place a r
      { r.studio with parked := r.studio.parked.eraseIdx index }
      (Pipeline.resume (E := E) r.studio.world next).world
      (Pipeline.resume (E := E) r.studio.world next).progress
      (Pipeline.resume (E := E) r.studio.world next).events
    rw [hsink, hfate, hs] at hp
    rw [← hr]
    exact hp

theorem answer_submit_of_error {s : Studio W Stream Audio Nat} {document : String} {e : Error}
    (h : ((Renderer.synthesize document : Act W E (Operation Stream)).run s.world).result =
      .error e) (ticket : Nat) : (s.submit (E := E) document ticket).answer = .error e := by
  rw [Studio.submit, Pipeline.result_submit_of_error ticket h]

theorem account_submit_of_error {r : Requests W Stream Audio} {document : String} {e : Error}
    (h : ((Renderer.synthesize document : Act W E (Operation Stream)).run
      r.studio.world).result = .error e) (ticket : Nat) :
    (r.after (r.studio.submit (E := E) document ticket)).account a = r.account a := by
  rw [Studio.submit, Pipeline.result_submit_of_error ticket h]
  dsimp only
  rw [account, after, repliesOf_engine, List.append_nil]
  rfl

/-- A submission that is accepted adds the reply of its own utterance. -/
theorem account_submit_of_ok (ha : Renderer.Steady W a) {r : Requests W Stream Audio}
    {document : String} {synthesis : Operation Stream}
    (h : ((Renderer.synthesize document : Act W E (Operation Stream)).run
      r.studio.world).result = .ok synthesis) (ticket : Nat) :
    (r.studio.submit (E := E) document ticket).answer = .ok () ∧
      ((r.after (r.studio.submit (E := E) document ticket)).account a).Perm
        ((ticket, (a.fate synthesis.reports).reply) :: r.account a) := by
  obtain ⟨p, hsub, hsink, hfate⟩ := Pipeline.result_submit_of_ok ha ticket h
  have hp := account_after_place a r r.studio
    ((Pipeline.submit (E := E) document ticket).run r.studio.world).world p
    ((Pipeline.submit (E := E) document ticket).run r.studio.world).events
  rw [hsink, hfate] at hp
  constructor
  · rw [Studio.submit, hsub]
  · rw [Studio.submit, hsub]
    exact hp

end Requests

def RequestEvent.document? {E : Type} (document? : E → Option String) :
    RequestEvent E → Option String
  | .engine event => document? event
  | .warn _ => none

namespace Requests

variable {W E Stream Audio : Type} {document? : E → Option String}

theorem documents_engine (document? : E → Option String) (events : List E) :
    (eventsOf (events.map Happening.engine)).filterMap (RequestEvent.document? document?) =
      events.filterMap document? := by
  induction events with
  | nil => rfl
  | cons e es ih =>
    rw [List.map_cons, eventsOf, List.flatMap_cons, ← eventsOf, List.filterMap_append, ih]
    cases h : document? e <;> simp [RequestEvent.document?, h]

theorem documents_place (document? : E → Option String) (s : Studio W Stream Audio Nat) (w : W)
    (p : Progress Stream Audio Nat) :
    (eventsOf (s.place w p : _ × List (Happening E Nat)).2).filterMap
      (RequestEvent.document? document?) = [] := by
  cases p with
  | waiting job => rfl
  | ended sink fate => cases fate <;> rfl

theorem documents_after_place (document? : E → Option String) (events : List E)
    (s : Studio W Stream Audio Nat) (w : W) (p : Progress Stream Audio Nat) :
    (eventsOf (events.map Happening.engine ++ (s.place w p).2)).filterMap
      (RequestEvent.document? document?) = events.filterMap document? := by
  have hp := documents_place document? s w p
  rw [eventsOf, List.flatMap_append, List.filterMap_append, ← eventsOf, ← eventsOf, hp,
    documents_engine, List.append_nil]

variable [Renderer W E Stream Audio]

theorem documents_finish (h : Renderer.Announces W document?) (r : Requests W Stream Audio)
    (index : Nat) (job : Job Stream Audio Nat) :
    (r.finish (E := E) index job).2.filterMap (RequestEvent.document? document?) = [] :=
  (documents_after_place document? _ _ _ _).trans
    (List.filterMap_eq_nil_iff.mpr (Pipeline.shy_resume h job r.studio.world))

theorem documents_submit (h : Renderer.Announces W document?) (s : Studio W Stream Audio Nat)
    (document : String) (ticket : Nat) :
    (eventsOf (s.submit (E := E) document ticket).shown).filterMap
      (RequestEvent.document? document?) = [document] := by
  rw [← Pipeline.documents_submit h document ticket s.world, Studio.submit]
  dsimp only
  split
  · exact documents_engine document? _
  · exact documents_after_place document? _ _ _ _

end Requests

end SpeechBridge

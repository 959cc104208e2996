import SpeechBridge.Proofs.Standing

/-!
# Bookkeeping

Most of what a session does is bookkeeping: tasks and jobs come and go, documents are queued and
handed over, and what has happened is noted. Main statement: what is seen of a session apart from
that stays as it is through every task but the output calls, and the calls that change settings.
-/
namespace SpeechBridge

def DriverCall.sets : DriverCall → Bool
  | setRate _ | setPitch _ | setVolume _ => true
  | _ => false

namespace Session

/-- What is seen of a session does not depend on its bookkeeping, nor on what its engine shows, as
long as that is of the given kind. -/
structure Apart {γ : Type} (see : Session → γ) (p : EngineEvent → Prop) : Prop where
  push : ∀ s tasks, see (s.push tasks) = see s
  park : ∀ (s : Session) jobs, see { s with parked := jobs } = see s
  result : ∀ (s : Session) r, see { s with result := r } = see s
  note : ∀ s entry, (∀ event, entry = .engine event → p event) → see (s.log [entry]) = see s
  engine : ∀ (s : Session) w, see { s with engine := w } = see s
  driver : ∀ s f, (∀ d, (f d).settings = d.settings) → see (s.updateDriver f) = see s

namespace Apart

variable {γ : Type} {see : Session → γ} {p : EngineEvent → Prop}

theorem log (h : Apart see p) (s : Session) {entries : List Entry}
    (he : ∀ event, .engine event ∈ entries → p event) : see (s.log entries) = see s := by
  induction entries generalizing s with
  | nil => simp [Session.log]
  | cons entry entries ih =>
    rw [log_cons, ih, h.note]
    · rintro event rfl
      exact he event List.mem_cons_self
    · exact fun event hm => he event (List.mem_cons_of_mem _ hm)

theorem place (h : Apart see p) (s : Session) (progress : Progress Outcome Outcome Unit) :
    see (s.place progress) = see s := by
  cases progress with
  | waiting job => exact h.park s _
  | ended _ fate => exact h.push s _

theorem shown (h : Apart see p) (s : Session) (w : ScriptedEngine) {events : List EngineEvent}
    (he : ∀ e ∈ events, p e) :
    see (({ s with engine := w } : Session).log (events.map .engine)) = see s := by
  rw [h.log, h.engine]
  intro event hm
  obtain ⟨_, hm, heq⟩ := List.mem_map.mp hm
  cases heq
  exact he event hm

theorem engineCall {α : Type} (h : Apart see p) (s : Session)
    {act : Act ScriptedEngine EngineEvent α} (ha : Act.Shows p act) :
    see (s.engineCall act).1 = see s :=
  h.shown s _ (ha s.engine)

theorem forward {α : Type} (h : Apart see p) (s : Session) (caller : Caller)
    {act : Act ScriptedEngine EngineEvent α} (ha : Act.Shows p act) (value : α → Value) :
    see (s.forward caller act value) = see s :=
  (h.push _ _).trans (h.engineCall s ha)

theorem resume (h : Apart see p) (s : Session) (job : DriverJob) : see (s.resume job) = see s :=
  (h.place _ _).trans (h.shown s _ (Pipeline.shows_resume (ScriptedEngine.reads p) job s.engine))

theorem resume_parked (h : Apart see p) (s : Session) (jobs : List DriverJob) (tasks : List Task)
    (job : DriverJob) : see (({ s with parked := jobs }.push tasks).resume job) = see s := by
  rw [h.resume, h.push, h.park]

variable (hs : ∀ document, p (.submitted document)) (hr : ∀ document, p (.rejected document))
include hs hr

theorem submission (h : Apart see p) {s t : Session} {document : String}
    {result : Except Error (Progress Outcome Outcome Unit)}
    (he : s.engineCall (Pipeline.submission document) = (t, result)) : see t = see s := by
  obtain ⟨rfl, _⟩ := Prod.mk.inj he
  exact h.engineCall s (Pipeline.shows_submission (hs document) (hr document))

theorem speak (h : Apart see p) (s : Session) (caller : Caller) (items : List SpeechItem) :
    see (s.speak caller items) = see s := by
  have hl := h.engineCall s (ScriptedEngine.shows_language p)
  rw [Session.speak]
  split
  next t e ht =>
    rw [ht] at hl
    exact (h.push _ _).trans hl
  next t language ht =>
    rw [ht] at hl
    dsimp only
    split
    · rw [answer, h.push, h.driver]
      · exact hl
      · exact fun _ => rfl
    · have hu := (h.driver t (fun d => { d with processing := true, cancelled := false })
        fun _ => rfl).trans hl
      split
      next u progress he => rw [h.place, answer, h.push, h.submission hs hr he, hu]
      next u e he =>
        rw [answer, h.push, h.driver, h.submission hs hr he, hu]
        exact fun _ => rfl

theorem advanceThrough (h : Apart see p) (s : Session) (documents : List String) :
    see (s.advanceThrough documents) = see s := by
  induction documents generalizing s with
  | nil =>
    rw [Session.advanceThrough, h.push, h.driver]
    exact fun _ => rfl
  | cons document documents ih =>
    have hu := h.driver s (fun d => { d with pending := documents, cancelled := false })
      fun _ => rfl
    rw [Session.advanceThrough]
    split
    next t progress he => rw [h.place, h.submission hs hr he, hu]
    next t e he =>
      rw [ih, h.note, h.submission hs hr he, hu]
      intro event hevent
      cases hevent

theorem call (h : Apart see p) (hv : ∀ index, p (.voiceSet index)) (s : Session) (caller : Caller)
    {c : DriverCall} (hc : c.sets = false) : see (s.call caller c) = see s := by
  cases c with
  | speak items => exact h.speak hs hr s caller items
  | cancel =>
    rw [Session.call, cancel, h.push, h.driver]
    exact fun _ => rfl
  | voices onlyValid => exact h.forward s caller (ScriptedEngine.shows_voices p _ _) _
  | voice => exact h.forward s caller (ScriptedEngine.shows_voiceId p) _
  | language => exact h.forward s caller (ScriptedEngine.shows_language p) _
  | setVoice id => exact h.forward s caller (ScriptedEngine.shows_select hv id) _
  | complete index =>
    rw [Session.call]
    split
    · exact h.push _ _
    · exact h.resume_parked s _ _ _
  | completeAll => exact h.push _ _
  | direct d => exact h.forward s caller (ScriptedEngine.shows_direct hv d) _
  | setRate _ | setPitch _ | setVolume _ => cases hc

theorem perform (h : Apart see p) (s : Session) {task : Task}
    (hc : ∀ caller c, task ≠ .call caller c) (ho : ∀ c, task ≠ .output c) :
    see (s.perform task) = see s := by
  cases task with
  | call caller c => exact absurd rfl (hc caller c)
  | output c => exact absurd rfl (ho c)
  | answer caller a =>
    cases caller with
    | outside => exact h.result s _
    | hook => exact h.log s (by simp)
  | drain caller count =>
    rw [Session.perform]
    split
    · exact h.push _ _
    · exact h.resume_parked s _ _ _
  | land fate =>
    cases fate with
    | delivered audio markers => exact h.push _ _
    | failed e => exact (h.push _ _).trans (h.log s (by simp))
    | dropped => rfl
  | play rest =>
    rw [Session.perform]
    split <;> exact h.push _ _
  | advance => exact h.advanceThrough hs hr s _

end Apart

end Session

end SpeechBridge

import SpeechBridge.Proofs.Run
import SpeechBridge.Proofs.Submission

/-!
# How a session stands

Of a session only a few things bear on which utterance comes when: the queue, the flag, what the
engine was handed, and who holds the sinks. Main statement: each move of a session is a step
between standings, one kind for each kind of occurrence.
-/
namespace SpeechBridge

structure Standing where
  pending : List String
  processing : Bool
  /-- Documents that the engine was handed, accepted or not. -/
  handed : List String
  accepted : Nat
  /-- Utterances whose sink is with a parked job or with a task that plays or ends it. -/
  outstanding : Nat
  /-- Ends of utterances that the driver has not gone on from. -/
  due : Nat
  deriving DecidableEq, Repr

/-- What happens next to the speech of a session. -/
inductive Occurrence where
  | spoken (document : String)
  | cancelled
  | ended
  | dropped
  | wentOn
  | other
  deriving DecidableEq, Repr

namespace Entry

def document? : Entry → Option String
  | engine event => event.document?
  | _ => none

def isAcceptance : Entry → Bool
  | engine (.submitted _) => true
  | _ => false

end Entry

namespace Task

def holdsSink : Task → Bool
  | land _ | play _ => true
  | _ => false

def isAdvance : Task → Bool
  | advance => true
  | _ => false

end Task

namespace Standing

inductive Step : Standing → Occurrence → Standing → Prop where
  | queue (v : Standing) (document) : v.processing = true →
      Step v (.spoken document) { v with pending := v.pending ++ [document] }
  | submit (v : Standing) (document) : v.processing = false →
      Step v (.spoken document)
        { v with
          processing := true
          handed := v.handed ++ [document]
          accepted := v.accepted + 1
          outstanding := v.outstanding + 1 }
  | refuse (v : Standing) (document) : v.processing = false →
      Step v (.spoken document) { v with handed := v.handed ++ [document] }
  | cancel (v : Standing) : Step v .cancelled { v with pending := [] }
  | finish (v : Standing) :
      Step { v with outstanding := v.outstanding + 1 } .ended { v with due := v.due + 1 }
  | drop (v : Standing) : Step { v with outstanding := v.outstanding + 1 } .dropped v
  | goOn (v : Standing) (refused document rest) : v.pending = refused ++ document :: rest →
      Step { v with due := v.due + 1 } .wentOn
        { v with
          pending := rest
          handed := v.handed ++ (refused ++ [document])
          accepted := v.accepted + 1
          outstanding := v.outstanding + 1 }
  | rest (v : Standing) :
      Step { v with due := v.due + 1 } .wentOn
        { v with pending := [], processing := false, handed := v.handed ++ v.pending }
  | other (v) : Step v .other v

theorem Step.of_eq {v w : Standing} (h : w = v) : Step v .other w := h ▸ .other v

/-- The standing together with what a task holds. -/
def charge (v : Standing) (task : Task) : Standing :=
  { v with
    outstanding := v.outstanding + if task.holdsSink then 1 else 0
    due := v.due + if task.isAdvance then 1 else 0 }

end Standing

namespace Session

def handed (s : Session) : List String := s.journal.filterMap Entry.document?

def accepted (s : Session) : Nat := s.journal.countP Entry.isAcceptance

def outstanding (s : Session) : Nat := s.parked.length + s.agenda.countP Task.holdsSink

def standing (s : Session) : Standing :=
  ⟨s.driver.pending, s.driver.processing, s.handed, s.accepted, s.outstanding,
    s.agenda.countP Task.isAdvance⟩

/-- What a call to speak amounts to: the document is for the language and the volume of the
moment of the call. -/
def heard (s : Session) (items : List SpeechItem) : Occurrence :=
  match (Driver.language.run s.engine).result with
  | .ok language =>
    .spoken (Converter.convert ⟨language, .leveled s.driver.settings.volume⟩ items)
  | .error _ => .other

def occurrenceOf (s : Session) : Task → Occurrence
  | .call _ (.speak items) => s.heard items
  | .call _ .cancel => .cancelled
  | .land (.failed _) => .ended
  | .land .dropped => .dropped
  | .play rest => if (rest.next s.driver.cancelled).isNone then .ended else .other
  | .advance => .wentOn
  | _ => .other

def occurrence (s : Session) : Occurrence :=
  match s.agenda with
  | [] => .other
  | task :: _ => s.occurrenceOf task

theorem standing_push (s : Session) (tasks : List Task) :
    (s.push tasks).standing =
      { s.standing with
        outstanding := s.standing.outstanding + tasks.countP Task.holdsSink
        due := s.standing.due + tasks.countP Task.isAdvance } := by
  simp only [push, standing, handed, accepted, outstanding, List.countP_append,
    Standing.mk.injEq, true_and]
  omega

theorem standing_log {s : Session} {entries : List Entry}
    (h : ∀ e ∈ entries, e.document? = none) : (s.log entries).standing = s.standing := by
  have hd : entries.filterMap Entry.document? = [] := List.filterMap_eq_nil_iff.mpr h
  have ha : entries.countP Entry.isAcceptance = 0 := by
    refine List.countP_eq_zero.mpr fun e he => ?_
    have := h e he
    rcases e with (_ | _ | _ | _) | _ | _ | _ <;>
      simp_all [Entry.document?, EngineEvent.document?, Entry.isAcceptance]
  simp only [log, standing, handed, accepted, outstanding, List.filterMap_append,
    List.countP_append, hd, ha, List.append_nil, Nat.add_zero]

theorem standing_answer (s : Session) (caller : Caller) (a : Answer) :
    (s.answer caller a).standing = s.standing := standing_push s [.answer caller a]

theorem standing_place (s : Session) (p : Progress Outcome Outcome Unit) :
    (s.place p).standing = { s.standing with outstanding := s.standing.outstanding + 1 } := by
  cases p with
  | waiting job =>
    simp only [place, standing, handed, accepted, outstanding, List.length_append,
      List.length_singleton, Standing.mk.injEq, true_and, and_true]
    omega
  | ended _ fate => exact standing_push s [.land fate]

theorem standing_updateDriver (s : Session) (f : Driver → Driver) :
    (s.updateDriver f).standing =
      { s.standing with
        pending := (f s.driver).pending
        processing := (f s.driver).processing } := rfl

theorem document_engine {events : List EngineEvent} (h : ∀ e ∈ events, e.document? = none) :
    ∀ e ∈ events.map Entry.engine, e.document? = none := by
  intro e he
  obtain ⟨event, hm, rfl⟩ := List.mem_map.mp he
  exact h event hm

theorem standing_engineCall {α : Type} (s : Session) {act : Act ScriptedEngine EngineEvent α}
    (h : ScriptedEngine.Mute act) : (s.engineCall act).1.standing = s.standing :=
  standing_log (s := { s with engine := (act.run s.engine).world }) (document_engine (h s.engine))

theorem standing_forward {α : Type} (s : Session) (caller : Caller)
    {act : Act ScriptedEngine EngineEvent α} (h : ScriptedEngine.Mute act) (value : α → Value) :
    (s.forward caller act value).standing = s.standing := by
  rw [forward, standing_answer, standing_engineCall s h]

theorem standing_resume (s : Session) (job : DriverJob) :
    (s.resume job).standing =
      { s.standing with outstanding := s.standing.outstanding + 1 } := by
  have h := document_engine (Pipeline.shy_resume ScriptedEngine.announces job s.engine)
  rw [resume, standing_place, standing_log h]
  rfl

theorem standing_log_submitted (s : Session) (document : String) :
    (s.log [.engine (.submitted document)]).standing =
      { s.standing with
        handed := s.standing.handed ++ [document]
        accepted := s.standing.accepted + 1 } := by
  simp [log, standing, handed, accepted, outstanding, Entry.document?, EngineEvent.document?,
    Entry.isAcceptance]

theorem standing_log_rejected (s : Session) (document : String) :
    (s.log [.engine (.rejected document)]).standing =
      { s.standing with handed := s.standing.handed ++ [document] } := by
  simp [log, standing, handed, accepted, outstanding, Entry.document?, EngineEvent.document?,
    Entry.isAcceptance]

theorem log_cons (s : Session) (e : Entry) (es : List Entry) :
    s.log (e :: es) = (s.log [e]).log es := by simp [log]

theorem standing_submission_of_ok {s t : Session} {document : String}
    {progress : Progress Outcome Outcome Unit}
    (h : s.engineCall (Pipeline.submission document) = (t, .ok progress)) :
    t.standing =
      { s.standing with
        handed := s.standing.handed ++ [document]
        accepted := s.standing.accepted + 1 } := by
  obtain ⟨rfl, hr⟩ := Prod.mk.inj h
  obtain ⟨later, he, hl⟩ := Pipeline.events_submission_of_ok hr
  rw [he, List.map_cons, log_cons, standing_log (document_engine hl), standing_log_submitted]
  rfl

theorem standing_submission_of_error {s t : Session} {document : String} {e : Error}
    (h : s.engineCall (Pipeline.submission document) = (t, .error e)) :
    t.standing = { s.standing with handed := s.standing.handed ++ [document] } := by
  obtain ⟨rfl, hr⟩ := Prod.mk.inj h
  rw [Pipeline.events_submission_of_error hr, List.map_singleton, standing_log_rejected]
  rfl

theorem driver_engineCall {α : Type} (s : Session) (act : Act ScriptedEngine EngineEvent α) :
    (s.engineCall act).1.driver = s.driver := rfl

theorem engineCall_of_result {α : Type} {s : Session} {act : Act ScriptedEngine EngineEvent α}
    {result : Except Error α} (h : (act.run s.engine).result = result) :
    s.engineCall act = ((s.engineCall act).1, result) :=
  Prod.ext rfl h

theorem standing_speak_of_error {s : Session} (caller : Caller) (items : List SpeechItem)
    {e : Error} (h : (Driver.language.run s.engine).result = .error e) :
    (s.speak caller items).standing = s.standing := by
  have hs := standing_engineCall s (ScriptedEngine.shows_language _)
  rw [speak, engineCall_of_result h]
  exact (standing_answer _ _ _).trans hs

theorem standing_speak_of_processing {s : Session} (caller : Caller) (items : List SpeechItem)
    {language : String} (h : (Driver.language.run s.engine).result = .ok language)
    (hp : s.driver.processing = true) :
    (s.speak caller items).standing =
      { s.standing with
        pending := s.standing.pending ++ [s.driver.document language items] } := by
  have hs := standing_engineCall s (ScriptedEngine.shows_language _)
  rw [speak, engineCall_of_result h]
  dsimp only
  rw [driver_engineCall, if_pos hp, standing_answer, standing_updateDriver, hs,
    driver_engineCall]
  rfl

theorem standing_speak_of_idle {s : Session} (caller : Caller) (items : List SpeechItem)
    {language : String} (h : (Driver.language.run s.engine).result = .ok language)
    (hp : s.driver.processing = false) :
    (s.speak caller items).standing =
        { s.standing with
          processing := true
          handed := s.standing.handed ++ [s.driver.document language items]
          accepted := s.standing.accepted + 1
          outstanding := s.standing.outstanding + 1 } ∨
      (s.speak caller items).standing =
        { s.standing with
          handed := s.standing.handed ++ [s.driver.document language items] } := by
  have hs := standing_engineCall s (ScriptedEngine.shows_language _)
  rw [speak, engineCall_of_result h]
  dsimp only
  rw [driver_engineCall, if_neg (by simp [hp])]
  split
  next u progress hu =>
    left
    rw [standing_place, standing_answer, standing_submission_of_ok hu, standing_updateDriver, hs]
    rfl
  next u e hu =>
    right
    have ht : (u.updateDriver fun d => { d with processing := false }).standing =
      { u.standing with processing := false } := rfl
    rw [standing_answer, ht, standing_submission_of_error hu, standing_updateDriver, hs,
      show (false : Bool) = s.standing.processing from hp.symm]
    rfl

theorem refines_speak (s : Session) (caller : Caller) (items : List SpeechItem) :
    Standing.Step s.standing (s.heard items) (s.speak caller items).standing := by
  rw [heard]
  split
  next language h =>
    cases hp : s.driver.processing with
    | true =>
      rw [standing_speak_of_processing caller items h hp]
      exact .queue _ _ hp
    | false =>
      rcases standing_speak_of_idle caller items h hp with hs | hs
      · rw [hs]
        exact .submit _ _ hp
      · rw [hs]
        exact .refuse _ _ hp
  next e h =>
    rw [standing_speak_of_error caller items h]
    exact .other _

/-- Going on hands queued documents over up to the first one that is accepted. -/
theorem standing_advanceThrough (s : Session) (documents : List String) :
    (∃ refused document rest, documents = refused ++ document :: rest ∧
      (s.advanceThrough documents).standing =
        { s.standing with
          pending := rest
          handed := s.standing.handed ++ (refused ++ [document])
          accepted := s.standing.accepted + 1
          outstanding := s.standing.outstanding + 1 }) ∨
      (s.advanceThrough documents).standing =
        { s.standing with
          pending := []
          processing := false
          handed := s.standing.handed ++ documents } := by
  induction documents generalizing s with
  | nil =>
    right
    rw [advanceThrough, standing_push, standing_updateDriver, List.append_nil]
    rfl
  | cons document documents ih =>
    rw [advanceThrough]
    dsimp only
    split
    next t progress h =>
      refine .inl ⟨[], document, documents, rfl, ?_⟩
      rw [standing_place, standing_submission_of_ok h, standing_updateDriver]
      rfl
    next t e h =>
      have ht : (t.log [.warn ("Could not submit queued speech: " ++ e.message)]).standing =
          { s.standing with
            pending := documents
            handed := s.standing.handed ++ [document] } := by
        rw [standing_log (by simp [Entry.document?]), standing_submission_of_error h,
          standing_updateDriver]
        rfl
      rcases ih (t.log [.warn ("Could not submit queued speech: " ++ e.message)]) with
        ⟨refused, next, rest, hd, hs⟩ | hs
      · refine .inl ⟨document :: refused, next, rest, by rw [hd]; rfl, ?_⟩
        rw [hs, ht]
        simp
      · right
        rw [hs, ht]
        simp

theorem refines_advance (s : Session) :
    Standing.Step { s.standing with due := s.standing.due + 1 } .wentOn s.advance.standing := by
  rw [advance]
  rcases s.standing_advanceThrough s.driver.pending with ⟨refused, document, rest, hd, hs⟩ | hs
  · rw [hs]
    exact .goOn _ refused document rest hd
  · rw [hs]
    exact .rest _

theorem standing_output (s : Session) (call : OutputCall) :
    (s.output call).standing = s.standing := by
  have hl : ∀ e ∈ s.shown call, e.document? = none := by
    intro e he
    unfold shown at he
    split at he
    · cases he
    · rw [List.mem_singleton.mp he]
      rfl
  rw [output, standing_push, standing_log hl, List.countP_map, List.countP_map]
  simp [standing, handed, accepted, outstanding, Function.comp_def, Task.holdsSink,
    Task.isAdvance]

theorem standing_resume_of_parked {s : Session} {jobs : List DriverJob} {tasks : List Task}
    (h : jobs.length + 1 = s.parked.length) (ht : tasks.countP Task.holdsSink = 0)
    (ha : tasks.countP Task.isAdvance = 0) (job : DriverJob) :
    (({ s with parked := jobs }.push tasks).resume job).standing = s.standing := by
  rw [standing_resume, standing_push, ht, ha]
  simp only [standing, handed, accepted, outstanding, Standing.mk.injEq, true_and, ← h]
  omega

theorem refines_call (s : Session) (caller : Caller) (c : DriverCall) :
    Standing.Step s.standing (s.occurrenceOf (.call caller c)) (s.call caller c).standing := by
  cases c with
  | speak items => exact s.refines_speak caller items
  | cancel =>
    rw [call, cancel, standing_push, standing_updateDriver]
    exact .cancel _
  | setRate percent => exact .of_eq (standing_forward _ _ (ScriptedEngine.shows_setProperty rfl) _)
  | setPitch percent => exact .of_eq (standing_forward _ _ (ScriptedEngine.shows_setProperty rfl) _)
  | setVolume percent => exact .of_eq (standing_answer _ _ _)
  | voices onlyValid => exact .of_eq (standing_forward _ _ (ScriptedEngine.shows_voices _ _ _) _)
  | voice => exact .of_eq (standing_forward _ _ (ScriptedEngine.shows_voiceId _) _)
  | language => exact .of_eq (standing_forward _ _ (ScriptedEngine.shows_language _) _)
  | setVoice id =>
    exact .of_eq (standing_forward _ _ (ScriptedEngine.shows_select (fun _ => rfl) id) _)
  | complete index =>
    rw [call]
    split
    · exact .of_eq (standing_answer _ _ _)
    next job h =>
      obtain ⟨hi, _⟩ := List.getElem?_eq_some_iff.mp h
      have hl : (s.parked.eraseIdx index).length + 1 = s.parked.length := by
        rw [List.length_eraseIdx_of_lt hi]
        omega
      exact .of_eq (standing_resume_of_parked hl rfl rfl job)
  | completeAll => exact .of_eq (standing_push _ _)
  | direct d => exact .of_eq (standing_forward _ _ (ScriptedEngine.shows_direct (fun _ => rfl) d) _)

theorem refines_perform (s : Session) (task : Task) :
    Standing.Step (s.standing.charge task) (s.occurrenceOf task) (s.perform task).standing := by
  cases task with
  | call caller c => exact s.refines_call caller c
  | answer caller a =>
    cases caller with
    | outside => exact .other _
    | hook => exact .of_eq (standing_log (by simp [Entry.document?]))
  | drain caller count =>
    rw [perform]
    split
    · exact .of_eq (standing_answer _ _ _)
    next job rest h => exact .of_eq (standing_resume_of_parked (by rw [h]; rfl) rfl rfl job)
  | output c => exact .of_eq (standing_output s c)
  | land fate =>
    cases fate with
    | delivered audio markers => exact .of_eq (standing_push _ _)
    | failed e =>
      rw [perform, land, standing_push, standing_log (by simp [Entry.document?])]
      exact .finish _
    | dropped => exact .drop _
  | play rest =>
    cases h : rest.next s.driver.cancelled with
    | none =>
      rw [perform, occurrenceOf, h]
      dsimp only
      rw [standing_push]
      exact .finish _
    | some next =>
      rw [perform, occurrenceOf, h]
      exact .of_eq (standing_push _ _)
  | advance => exact s.refines_advance

/-- A session refines its standing: each step is a step between standings. -/
theorem refines_step (s : Session) : Standing.Step s.standing s.occurrence s.step.standing := by
  unfold occurrence step
  cases h : s.agenda with
  | nil => exact .other _
  | cons task rest =>
    have hc : s.standing = ({ s with agenda := rest } : Session).standing.charge task := by
      simp only [standing, Standing.charge, handed, accepted, outstanding, h, List.countP_cons,
        Standing.mk.injEq, true_and, and_true]
      omega
    rw [hc]
    exact refines_perform { s with agenda := rest } task

theorem refines_move {s t : Session} (h : Move s t) :
    Standing.Step s.standing s.occurrence t.standing := by
  cases h with
  | step => exact s.refines_step
  | receive c ha =>
    have ho : s.occurrence = .other := by rw [occurrence, ha]
    rw [ho]
    refine .of_eq ?_
    simp [receive, standing, handed, accepted, outstanding, Task.holdsSink, Task.isAdvance]

theorem document_attempt {act : Act ScriptedEngine EngineEvent Unit}
    (h : ScriptedEngine.Mute act) (label : String) (engine : ScriptedEngine) :
    ∀ n ∈ (Driver.attempt act label engine).2, (Entry.ofNote n).document? = none := by
  intro n hn
  rcases List.mem_append.mp hn with hn | hn
  · obtain ⟨event, he, rfl⟩ := List.mem_map.mp hn
    exact h engine event he
  · split at hn
    · cases hn
    · rw [List.mem_singleton.mp hn]
      rfl

theorem standing_start (config : DriverConfig) (reportsIdle : Bool) (hooks : List Hook)
    (engine : ScriptedEngine) :
    (start config reportsIdle hooks engine).standing = ⟨[], false, [], 0, 0, 0⟩ := by
  have hn : ∀ e ∈ (Driver.start.introduce engine).2.map Entry.ofNote, e.document? = none := by
    intro e he
    obtain ⟨n, hn, rfl⟩ := List.mem_map.mp he
    rcases List.mem_append.mp hn with hn | hn
    · exact document_attempt (ScriptedEngine.shows_setProperty rfl) _ _ n hn
    · exact document_attempt (ScriptedEngine.shows_setProperty rfl) _ _ n hn
  exact standing_log (s := { start config reportsIdle hooks engine with journal := [] }) hn

end Session

end SpeechBridge

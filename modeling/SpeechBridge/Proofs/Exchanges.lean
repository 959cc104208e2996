import SpeechBridge.Proofs.Recordings
import SpeechBridge.Proofs.Silence

/-!
# What the engine makes of documents

Each document that is handed over takes the next outcome of the script. Main statement: an
utterance in progress is on its way to the fate that belongs to the outcome of the document that
was handed over last.
-/
namespace SpeechBridge

namespace ScriptedEngine

/-- Documents in the order in which they are handed over, with the outcomes that they take. -/
def pairUp : List Outcome → List String → List (String × Outcome)
  | _, [] => []
  | script, document :: documents =>
    (document, script.headD .silent) :: pairUp script.tail documents

theorem fst_pairUp (script : List Outcome) (documents : List String) :
    (pairUp script documents).map Prod.fst = documents := by
  induction documents generalizing script with
  | nil => rfl
  | cons document documents ih => rw [pairUp, List.map_cons, ih]

theorem script_synthesize (document : String) (s : ScriptedEngine) :
    ((synthesize document).run s).world.script = s.script.tail := by
  rw [synthesize, Act.world_bind_of_ok rfl]
  exact keeps_accept document s.nextOutcome { s with script := s.script.tail }

theorem reports_operation (mode : CompletionMode) (reports : List (Except Error Outcome)) :
    (mode.operation reports).reports = reports := by
  cases mode <;> rfl

theorem fate_of_no_mishap {o : Outcome} (h : o.mishap = none) :
    answers.fate (synthesisReports o) = .delivered o.audio o.markers := by
  rcases o with ⟨audio, markers, mishap⟩
  obtain rfl : mishap = none := h
  rfl

end ScriptedEngine

namespace Pipeline

open ScriptedEngine

theorem script_submission (document : String) (s : ScriptedEngine) :
    ((submission document).run s).world.script = s.script.tail := by
  rw [← script_synthesize document s, submission_eq]
  cases hr : ((synthesize document).run s).result with
  | error e => rw [Act.world_bind_of_error hr]
  | ok read =>
    rw [Act.world_bind_of_ok hr]
    exact keeps_await read _

theorem fate_of_submission {document : String} {s : ScriptedEngine}
    {progress : Progress Outcome Outcome Unit}
    (h : ((submission document).run s).result = .ok progress) :
    answers.progressFate progress = answers.fate (synthesisReports s.nextOutcome) := by
  obtain ⟨read, hr, _⟩ := Act.result_bind_eq_ok.1 h
  obtain ⟨p, hp, _, hf⟩ := result_submit_of_ok steady () hr
  cases h.symm.trans hp
  rw [hf, result_synthesize hr, reports_operation]

end Pipeline

def Task.fate? : Task → Option Fate
  | land fate => some fate
  | _ => none

/-- Documents are only ever added to those handed over, and only where some are handed over. -/
theorem Standing.Step.handed {v w : Standing} {e : Occurrence} (h : Step v e w) :
    v.handed <+: w.handed ∧ (¬ v.HandsOver e → w.handed = v.handed) := by
  cases h with
  | submit v document hp | refuse v document hp =>
    constructor
    · exact List.prefix_append _ _
    · intro hn
      exact absurd hp hn
  | goOn v refused document rest hd =>
    constructor
    · exact List.prefix_append _ _
    · intro hn
      exact absurd (show v.pending ≠ [] by simp [hd]) hn
  | rest v =>
    constructor
    · exact List.prefix_append _ _
    · intro hn
      have hp : v.pending = [] := not_not.mp hn
      simp [hp]
  | _ => exact ⟨List.prefix_rfl, fun _ => rfl⟩

namespace Session

open ScriptedEngine

def fates (s : Session) : List Fate :=
  s.parked.map answers.jobFate ++ s.agenda.filterMap Task.fate?

theorem fates_push {s : Session} {tasks : List Task} (h : tasks.filterMap Task.fate? = []) :
    (s.push tasks).fates = s.fates := by
  rw [fates, push, List.filterMap_append, h]
  rfl

theorem mem_fates_place {s : Session} {p : Progress Outcome Outcome Unit} {f : Fate} :
    f ∈ (s.place p).fates ↔ f = answers.progressFate p ∨ f ∈ s.fates := by
  cases p with
  | waiting job =>
    simp only [place, fates, List.map_append, List.map_singleton, List.mem_append,
      List.mem_singleton, Answers.progressFate]
    tauto
  | ended _ fate =>
    simp only [place, push, fates, List.singleton_append, List.filterMap_cons, Task.fate?,
      List.mem_append, List.mem_cons, Answers.progressFate]
    tauto

theorem mem_fates_resume {s : Session} {job : DriverJob} {f : Fate} :
    f ∈ (s.resume job).fates ↔ f = answers.jobFate job ∨ f ∈ s.fates := by
  rw [resume, mem_fates_place, (Pipeline.leadsTo_resume steady job s.engine).2]
  rfl

theorem fates_of_outstanding {s : Session} (h : s.outstanding = 0) : s.fates = [] := by
  obtain ⟨hp, ha⟩ := Nat.add_eq_zero_iff.mp h
  rw [fates, List.eq_nil_of_length_eq_zero hp, List.map_nil, List.nil_append]
  apply List.filterMap_eq_nil_iff.mpr
  intro task ht
  have hn := List.countP_eq_zero.mp ha task ht
  cases task with
  | land fate => exact absurd rfl hn
  | _ => rfl

theorem fates_speak {s : Session} {items : List SpeechItem}
    (h : ¬ s.standing.HandsOver (s.heard items)) (caller : Caller) :
    (s.speak caller items).fates = s.fates := by
  cases hl : (Driver.language.run s.engine).result with
  | error e =>
    rw [speak, engineCall_of_result hl]
    exact fates_push rfl
  | ok language =>
    rw [heard, hl] at h
    have hp : s.driver.processing = true := (Bool.not_eq_false _).mp h
    rw [speak, engineCall_of_result hl]
    dsimp only
    rw [driver_engineCall, if_pos hp]
    exact fates_push rfl

/-- Only handing a document over brings a new fate up. -/
theorem fates_perform {s : Session} {task : Task}
    (h : ¬ s.standing.HandsOver (s.occurrenceOf task)) :
    ∀ f ∈ (s.perform task).fates, f ∈ s.fates := by
  intro f hf
  cases task with
  | call caller c =>
    cases c with
    | speak items => rwa [perform, call, fates_speak h] at hf
    | complete index =>
      rw [perform, call] at hf
      split at hf
      · exact hf
      next job hi =>
        rcases mem_fates_resume.mp hf with rfl | hf
        · exact List.mem_append_left _ (List.mem_map_of_mem (List.mem_of_getElem? hi))
        · rcases List.mem_append.mp hf with hf | hf
          · have hs := (List.eraseIdx_sublist s.parked index).map answers.jobFate
            exact List.mem_append_left _ (hs.subset hf)
          · exact List.mem_append_right _ hf
    | _ => exact hf
  | answer caller a => cases caller <;> exact hf
  | drain caller count =>
    rw [perform] at hf
    split at hf
    · exact hf
    next job rest hp =>
      rw [fates, hp]
      rcases mem_fates_resume.mp hf with rfl | hf
      · exact List.mem_cons_self
      · exact List.mem_cons_of_mem _ hf
  | output c =>
    have ht : ((s.hooks.filter (s.fires c)).map fun (h : Hook) =>
        Task.call .hook h.call).filterMap Task.fate? = [] := by
      simp [List.filterMap_map, Function.comp_def, Task.fate?]
    rwa [perform, output, fates_push ht] at hf
  | land fate => cases fate <;> exact hf
  | play p =>
    rw [perform] at hf
    split at hf <;> exact hf
  | advance =>
    have hp : s.driver.pending = [] := not_not.mp h
    rw [perform, advance, hp] at hf
    exact hf

/-- What is in progress is what the engine makes of the last document. -/
def Follows (exchanges : List (String × Outcome)) (s : Session) : Prop :=
  ∀ f ∈ s.fates, ∃ document outcome, exchanges.getLast? = some (document, outcome) ∧
    f = answers.fate (synthesisReports outcome)

theorem Follows.prepend {later : List (String × Outcome)} {s : Session} (h : Follows later s)
    (earlier : List (String × Outcome)) : Follows (earlier ++ later) s := by
  intro f hf
  obtain ⟨document, outcome, hl, he⟩ := h f hf
  refine ⟨document, outcome, ?_, he⟩
  rw [List.getLast?_append, hl]
  rfl

theorem engineCall_eq {α : Type} {s t : Session} {act : Act ScriptedEngine EngineEvent α}
    {result : Except Error α} (h : s.engineCall act = (t, result)) :
    t.fates = s.fates ∧ t.engine = (act.run s.engine).world ∧
      (act.run s.engine).result = result := by
  obtain ⟨rfl, hr⟩ := Prod.mk.inj h
  exact ⟨rfl, rfl, hr⟩

theorem handed_place (s : Session) (p : Progress Outcome Outcome Unit) :
    (s.place p).handed = s.handed :=
  congrArg Standing.handed (standing_place s p)

theorem follows_place {s t u : Session} {document : String}
    {progress : Progress Outcome Outcome Unit}
    (h : s.engineCall (Pipeline.submission document) = (t, .ok progress)) (hu : u.fates = []) :
    Follows (pairUp s.engine.script [document]) (u.place progress) := by
  intro f hf
  rcases mem_fates_place.mp hf with rfl | hf
  · exact ⟨document, s.engine.nextOutcome, rfl, Pipeline.fate_of_submission (engineCall_eq h).2.2⟩
  · rw [hu] at hf
    cases hf

theorem follows_of_fates {s : Session} (h : s.fates = []) (exchanges : List (String × Outcome)) :
    Follows exchanges s := by
  intro f hf
  rw [h] at hf
  cases hf

theorem follows_advanceThrough {s : Session} (hs : s.fates = []) (documents : List String) :
    ∃ took, (s.advanceThrough documents).handed = s.handed ++ took ∧
      Follows (pairUp s.engine.script took) (s.advanceThrough documents) := by
  induction documents generalizing s with
  | nil => exact ⟨[], (List.append_nil _).symm, follows_of_fates hs _⟩
  | cons document documents ih =>
    rw [advanceThrough]
    split
    next t progress ht =>
      have hf := follows_place ht ((engineCall_eq ht).1.trans hs)
      refine ⟨[document], ?_, hf⟩
      rw [handed_place]
      exact congrArg Standing.handed (standing_submission_of_ok ht)
    next t e ht =>
      obtain ⟨hf, he, _⟩ := engineCall_eq ht
      have hh : t.handed = s.handed ++ [document] :=
        congrArg Standing.handed (standing_submission_of_error ht)
      have hw : (t.log [.warn ("Could not submit queued speech: " ++ e.message)]).handed =
          t.handed :=
        congrArg Standing.handed (standing_log (by simp [Entry.document?]))
      obtain ⟨took, htook, hfollows⟩ :=
        ih (s := t.log [.warn ("Could not submit queued speech: " ++ e.message)]) (hf.trans hs)
      refine ⟨document :: took, ?_, ?_⟩
      · rw [htook, hw, hh, List.append_assoc]
        rfl
      · have hscript : t.engine.script = s.engine.script.tail := by
          rw [he]
          exact Pipeline.script_submission document s.engine
        rw [show (t.log _).engine.script = t.engine.script from rfl, hscript] at hfollows
        exact hfollows.prepend [(document, s.engine.nextOutcome)]

theorem follows_speak {s : Session} {caller : Caller} {items : List SpeechItem}
    (hs : s.fates = []) (hh : s.standing.HandsOver (s.heard items)) :
    ∃ took, (s.speak caller items).handed = s.handed ++ took ∧
      Follows (pairUp s.engine.script took) (s.speak caller items) := by
  cases hl : (Driver.language.run s.engine).result with
  | error e =>
    rw [heard, hl] at hh
    exact hh.elim
  | ok language =>
    rw [heard, hl] at hh
    have hp : s.driver.processing = false := hh
    refine ⟨[s.driver.document language items], ?_, ?_⟩
    · rcases standing_speak_of_idle caller items hl hp with hw | hw
      · exact congrArg Standing.handed hw
      · exact congrArg Standing.handed hw
    · have hscript : (s.engineCall Driver.language).1.engine.script = s.engine.script :=
        keeps_language s.engine
      rw [speak, engineCall_of_result hl, ← hscript]
      dsimp only
      rw [driver_engineCall, if_neg (by simp [hp])]
      split
      next t progress ht =>
        have hf : (t.answer caller (.returned .done)).fates = [] :=
          (fates_push rfl).trans ((engineCall_eq ht).1.trans hs)
        have hfollows := follows_place ht hf
        exact hfollows
      next t e ht =>
        apply follows_of_fates
        exact (fates_push rfl).trans ((engineCall_eq ht).1.trans hs)

theorem follows_perform {s : Session} {task : Task} (hs : s.fates = [])
    (hh : s.standing.HandsOver (s.occurrenceOf task)) :
    ∃ took, (s.perform task).handed = s.handed ++ took ∧
      Follows (pairUp s.engine.script took) (s.perform task) := by
  cases task with
  | call caller c =>
    cases c with
    | speak items => exact follows_speak hs hh
    | _ => exact hh.elim
  | land fate => cases fate <;> exact hh.elim
  | play p =>
    rw [occurrenceOf] at hh
    split at hh <;> exact hh.elim
  | advance => exact follows_advanceThrough hs s.driver.pending
  | _ => exact hh.elim

/-- The documents that the next step hands over, with the outcomes that they take. -/
def exchange (s : Session) : List (String × Outcome) :=
  pairUp s.engine.script (s.step.handed.drop s.handed.length)

def exchanges (past : List Session) : List (String × Outcome) := past.flatMap exchange

theorem handed_append_exchange (s : Session) :
    s.handed ++ s.exchange.map Prod.fst = s.step.handed := by
  obtain ⟨later, hl⟩ := (refines_step s).handed.1
  change s.handed ++ later = s.step.handed at hl
  rw [exchange, fst_pairUp, ← hl, List.drop_left]

theorem exchange_of_not_handsOver {s : Session} (h : ¬ s.standing.HandsOver s.occurrence) :
    s.exchange = [] := by
  have hh : s.step.handed = s.handed := (refines_step s).handed.2 h
  rw [exchange, hh, List.drop_length]
  rfl

theorem step_of_nil {s : Session} (h : s.agenda = []) : s.step = s := by
  rw [step, h]

theorem exchanges_concat (past : List Session) (s : Session) :
    exchanges (past ++ [s]) = exchanges past ++ s.exchange := by
  rw [exchanges, List.flatMap_append, List.flatMap_singleton]
  rfl

theorem Run.fst_exchanges {past : List Session} {s : Session} (h : Run past s) :
    (exchanges past).map Prod.fst = s.handed := by
  induction h with
  | start config reportsIdle hooks engine =>
    exact (congrArg Standing.handed (standing_start config reportsIdle hooks engine)).symm
  | @move past s t _ hm ih =>
    rw [exchanges_concat, List.map_append, ih, handed_append_exchange]
    cases hm with
    | step => rfl
    | receive c ha =>
      rw [step_of_nil ha]
      rfl

theorem fates_tail {s : Session} {task : Task} {rest : List Task}
    (ha : s.agenda = task :: rest) :
    ∀ f ∈ ({ s with agenda := rest } : Session).fates, f ∈ s.fates := by
  intro f hf
  rw [fates, ha]
  rcases List.mem_append.mp hf with hf | hf
  · exact List.mem_append_left _ hf
  · have ht := (List.sublist_cons_self task rest).filterMap Task.fate?
    exact List.mem_append_right _ (ht.subset hf)

theorem follows_step {s : Session} {earlier : List (String × Outcome)} (h : Follows earlier s)
    (ho : s.standing.HandsOver s.occurrence → s.outstanding = 0) :
    Follows (earlier ++ s.exchange) s.step := by
  by_cases hh : s.standing.HandsOver s.occurrence
  · apply Follows.prepend
    have hs := fates_of_outstanding (ho hh)
    rw [exchange]
    unfold occurrence at hh
    unfold step
    cases ha : s.agenda with
    | nil =>
      rw [ha] at hh
      exact hh.elim
    | cons task rest =>
      rw [ha] at hh
      have hrest : ({ s with agenda := rest } : Session).fates = [] := by
        apply List.eq_nil_of_subset_nil
        intro f hf
        exact hs ▸ fates_tail ha f hf
      obtain ⟨took, htook, hf⟩ := follows_perform (s := { s with agenda := rest }) hrest hh
      have hd : (({ s with agenda := rest } : Session).perform task).handed.drop s.handed.length =
          took := by
        rw [htook]
        exact List.drop_left
      dsimp only
      rw [hd]
      exact hf
  · rw [exchange_of_not_handsOver hh, List.append_nil]
    unfold occurrence at hh
    unfold step
    cases ha : s.agenda with
    | nil => exact h
    | cons task rest =>
      rw [ha] at hh
      intro f hf
      exact h f (fates_tail ha f (fates_perform (s := { s with agenda := rest }) hh f hf))

/-- An utterance in progress is on its way to the fate that belongs to what the engine makes of
the document that was handed over last. -/
theorem Run.follows {past : List Session} {s : Session} (h : Run past s) :
    Follows (exchanges past) s := by
  induction h with
  | start config reportsIdle hooks engine => exact follows_of_fates rfl _
  | @move past s t hr hm ih =>
    have hs := follows_step ih fun hh => (refines_move hm).outstanding_of_handsOver hr.balanced hh
    rw [exchanges_concat]
    cases hm with
    | step => exact hs
    | receive c ha =>
      rw [step_of_nil ha] at hs
      intro f hf
      apply hs f
      rw [fates, receive, ha] at hf
      rw [fates, ha]
      exact hf

end Session

end SpeechBridge

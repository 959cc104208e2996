import SpeechBridge.Proofs.Silence

/-!
# Calls to speak that fail

A call to speak fails if the language of the voice is not to be had, or if nothing is in progress
and the engine rejects the document. What it leaves behind, the engine apart, is at most a lowered
cancel flag. Only playback looks at the flag, and the driver is busy for as long as one goes on.
Main statement: after a call to speak that failed a session goes on as if it had not been made.
-/
namespace SpeechBridge

/-- The drivers differ at most in a cancel flag that has nothing to stop. -/
structure Driver.Alike (d e : Driver) : Prop where
  settings : e.settings = d.settings
  pending : e.pending = d.pending
  processing : e.processing = d.processing
  cancelled : d.processing = true → e.cancelled = d.cancelled

theorem Driver.Alike.refl (d : Driver) : d.Alike d := ⟨rfl, rfl, rfl, fun _ => rfl⟩

theorem Driver.Alike.symm {d e : Driver} (h : d.Alike e) : e.Alike d :=
  ⟨h.settings.symm, h.pending.symm, h.processing.symm,
    fun hp => (h.cancelled (h.processing ▸ hp)).symm⟩

theorem Driver.Alike.of_idle {d e : Driver} (hs : e.settings = d.settings)
    (hq : e.pending = d.pending) (hd : d.processing = false) (he : e.processing = false) :
    d.Alike e :=
  ⟨hs, hq, he.trans hd.symm, fun hp => absurd (hd.symm.trans hp) Bool.false_ne_true⟩

theorem Driver.Alike.document {d e : Driver} (h : d.Alike e) (language : String)
    (items : List SpeechItem) : e.document language items = d.document language items := by
  rw [Driver.document, Driver.document, h.settings]

namespace Session

/-- From two beginnings the journals of the sessions have gone on in the same way. What else there
is of them is the same, but for the answer that may have come before. -/
structure Alike (first second : List Entry) (answered : Prop) (s t : Session) : Prop where
  config : t.config = s.config
  reportsIdle : t.reportsIdle = s.reportsIdle
  driver : s.driver.Alike t.driver
  engine : t.engine = s.engine
  parked : t.parked = s.parked
  hooks : t.hooks = s.hooks
  made : t.made = s.made
  agenda : t.agenda = s.agenda
  shown : ∃ shown, s.journal = first ++ shown ∧ t.journal = second ++ shown
  result : answered → t.result = s.result

namespace Alike

variable {first second : List Entry} {answered : Prop} {s t : Session}

theorem push (h : Alike first second answered s t) (tasks : List Task) :
    Alike first second answered (s.push tasks) (t.push tasks) :=
  { h with agenda := congrArg (tasks ++ ·) h.agenda }

theorem answer (h : Alike first second answered s t) (caller : Caller) (a : Answer) :
    Alike first second answered (s.answer caller a) (t.answer caller a) :=
  h.push _

theorem log (h : Alike first second answered s t) (entries : List Entry) :
    Alike first second answered (s.log entries) (t.log entries) := by
  obtain ⟨shown, hs, ht⟩ := h.shown
  refine { h with shown := ⟨shown ++ entries, ?_, ?_⟩ }
  · rw [Session.log, hs, List.append_assoc]
  · rw [Session.log, ht, List.append_assoc]

theorem updateDriver (h : Alike first second answered s t) {f : Driver → Driver}
    (hf : (f s.driver).Alike (f t.driver)) :
    Alike first second answered (s.updateDriver f) (t.updateDriver f) :=
  { h with driver := hf }

theorem engineCall {α : Type} (h : Alike first second answered s t)
    (act : Act ScriptedEngine EngineEvent α) :
    ∃ u v result, s.engineCall act = (u, result) ∧ t.engineCall act = (v, result) ∧
      Alike first second answered u v := by
  have hw : Alike first second answered { s with engine := (act.run s.engine).world }
      { t with engine := (act.run s.engine).world } := { h with engine := rfl }
  refine ⟨_, _, (act.run s.engine).result, rfl, ?_, hw.log ((act.run s.engine).events.map .engine)⟩
  rw [Session.engineCall, h.engine]

theorem place (h : Alike first second answered s t) (p : Progress Outcome Outcome Unit) :
    Alike first second answered (s.place p) (t.place p) := by
  cases p with
  | waiting job => exact { h with parked := congrArg (· ++ [job]) h.parked }
  | ended _ fate => exact h.push _

theorem resume (h : Alike first second answered s t) (job : DriverJob) :
    Alike first second answered (s.resume job) (t.resume job) := by
  rw [Session.resume, Session.resume, h.engine]
  have hw : Alike first second answered
      { s with engine := (Pipeline.resume s.engine job).world }
      { t with engine := (Pipeline.resume s.engine job).world } := { h with engine := rfl }
  exact (hw.log _).place _

theorem forward {α : Type} (h : Alike first second answered s t) (caller : Caller)
    (act : Act ScriptedEngine EngineEvent α) (value : α → Value) :
    Alike first second answered (s.forward caller act value) (t.forward caller act value) := by
  obtain ⟨u, v, result, hs, ht, hl⟩ := h.engineCall act
  rw [Session.forward, Session.forward, hs, ht]
  exact hl.answer _ _

theorem adjust (h : Alike first second answered s t) (caller : Caller) {f : Driver → Driver}
    (hf : (f s.driver).Alike (f t.driver)) (name : String) (value : Settings → Int) :
    Alike first second answered
      ((s.updateDriver f).forward caller
        (VoiceControl.setProperty name (value (f s.driver).settings)) fun () => .done)
      ((t.updateDriver f).forward caller
        (VoiceControl.setProperty name (value (f t.driver).settings)) fun () => .done) := by
  rw [hf.settings]
  exact (h.updateDriver hf).forward _ _ _

theorem speak (h : Alike first second answered s t) (caller : Caller) (items : List SpeechItem) :
    Alike first second answered (s.speak caller items) (t.speak caller items) := by
  obtain ⟨u, v, language, hs, ht, hl⟩ := h.engineCall Driver.language
  rw [Session.speak, Session.speak, hs, ht]
  cases language with
  | error e => exact hl.answer _ _
  | ok language =>
    dsimp only
    rw [hl.driver.document, hl.driver.processing]
    split
    · refine (hl.updateDriver ?_).answer _ _
      exact { hl.driver with pending := congrArg (· ++ [_]) hl.driver.pending }
    · have hb := hl.updateDriver (f := fun d => { d with processing := true, cancelled := false })
        { hl.driver with processing := rfl, cancelled := fun _ => rfl }
      obtain ⟨u', v', result, hu, hv, hc⟩ := hb.engineCall
        (Pipeline.submit (u.driver.document language items) ())
      rw [hu, hv]
      cases result with
      | ok progress => exact (hc.answer _ _).place _
      | error e =>
        refine (hc.updateDriver ?_).answer _ _
        exact .of_idle hc.driver.settings hc.driver.pending rfl rfl

theorem cancel (h : Alike first second answered s t) (caller : Caller) :
    Alike first second answered (s.cancel caller) (t.cancel caller) := by
  refine (h.updateDriver ?_).push _
  exact { h.driver with pending := rfl, cancelled := fun _ => rfl }

theorem advanceThrough (h : Alike first second answered s t) (documents : List String) :
    Alike first second answered (s.advanceThrough documents) (t.advanceThrough documents) := by
  induction documents generalizing s t with
  | nil =>
    refine (h.updateDriver ?_).push _
    exact .of_idle h.driver.settings rfl rfl rfl
  | cons document rest ih =>
    rw [Session.advanceThrough, Session.advanceThrough]
    have hb := h.updateDriver (f := fun d => { d with pending := rest, cancelled := false })
      { h.driver with pending := rfl, cancelled := fun _ => rfl }
    obtain ⟨u, v, result, hs, ht, hc⟩ := hb.engineCall (Pipeline.submit document ())
    rw [hs, ht]
    cases result with
    | ok progress => exact hc.place _
    | error e => exact ih (hc.log _)

theorem advance (h : Alike first second answered s t) :
    Alike first second answered s.advance t.advance := by
  rw [Session.advance, Session.advance, h.driver.pending]
  exact h.advanceThrough _

theorem output (h : Alike first second answered s t) (c : OutputCall) :
    Alike first second answered (s.output c) (t.output c) := by
  have hf : t.fires c = s.fires c := by
    funext hook
    rw [Session.fires, Session.fires, h.made]
  have hs : t.shown c = s.shown c := by rw [Session.shown, Session.shown, h.reportsIdle]
  rw [Session.output, Session.output, hf, hs, h.hooks, h.made]
  have hm : Alike first second answered
      { s with made := c.kind :: s.made, hooks := s.hooks.filter fun hook => !s.fires c hook }
      { t with made := c.kind :: s.made, hooks := s.hooks.filter fun hook => !s.fires c hook } :=
    { h with made := rfl, hooks := rfl }
  exact (hm.log _).push _

theorem land (h : Alike first second answered s t) (fate : Fate) :
    Alike first second answered (s.land fate) (t.land fate) := by
  cases fate with
  | delivered audio markers =>
    rw [Session.land, Session.land, h.config]
    exact h.push _
  | failed e => exact (h.log _).push _
  | dropped => exact h

theorem call (h : Alike first second answered s t) (caller : Caller) (c : DriverCall) :
    Alike first second answered (s.call caller c) (t.call caller c) := by
  cases c with
  | speak items => exact h.speak caller items
  | cancel => exact h.cancel caller
  | setRate percent =>
    have hd : (s.driver.setRate percent).Alike (t.driver.setRate percent) :=
      { h.driver with settings := by rw [Driver.setRate, Driver.setRate, h.driver.settings] }
    exact h.adjust caller hd VoiceProperty.speakRate.engineName (·.rate.value)
  | setPitch percent =>
    have hd : (s.driver.setPitch percent).Alike (t.driver.setPitch percent) :=
      { h.driver with settings := by rw [Driver.setPitch, Driver.setPitch, h.driver.settings] }
    exact h.adjust caller hd VoiceProperty.pitch.engineName (·.pitch.value)
  | setVolume percent =>
    refine (h.updateDriver ?_).answer _ _
    exact { h.driver with settings := by rw [Driver.setVolume, Driver.setVolume, h.driver.settings] }
  | voices onlyValid =>
    rw [Session.call, Session.call, h.config]
    exact h.forward _ _ _
  | complete index =>
    rw [Session.call, Session.call, h.parked]
    split
    · exact h.answer _ _
    next job _ =>
      have hp : Alike first second answered { s with parked := s.parked.eraseIdx index }
          { t with parked := s.parked.eraseIdx index } := { h with parked := rfl }
      exact (hp.answer _ _).resume job
  | completeAll => exact h.push _
  | voice => exact h.forward _ _ _
  | language => exact h.forward _ _ _
  | setVoice id => exact h.forward _ _ _
  | direct d => exact h.forward _ _ _

/-- The flags need to be the same only where playback looks at them. -/
theorem perform (h : Alike first second answered s t) (task : Task)
    (hp : task.isPlay = true → s.driver.processing = true) :
    Alike first second answered (s.perform task) (t.perform task) := by
  cases task with
  | call caller c => exact h.call caller c
  | answer caller a =>
    cases caller with
    | outside => exact { h with result := fun _ => rfl }
    | hook => exact h.log _
  | drain caller count =>
    rw [Session.perform, Session.perform, h.parked]
    split
    · exact h.answer _ _
    next job rest _ =>
      have hr : Alike first second answered { s with parked := rest } { t with parked := rest } :=
        { h with parked := rfl }
      exact (hr.push _).resume job
  | output c => exact h.output c
  | land fate => exact h.land fate
  | play rest =>
    rw [Session.perform, Session.perform, h.driver.cancelled (hp rfl)]
    split
    · exact h.push _
    · exact h.push _
  | advance => exact h.advance

end Alike

theorem Run.processing_of_play {past : List Session} {s : Session} (h : Run past s) {task : Task}
    {rest : List Task} (ha : s.agenda = task :: rest) (hp : task.isPlay = true) :
    s.driver.processing = true := by
  have hs : task.holdsSink = true := by
    cases task with
    | play p => rfl
    | _ => cases hp
  have ho : s.outstanding = s.parked.length + (rest.countP Task.holdsSink + 1) := by
    rw [outstanding, ha, List.countP_cons_of_pos hs]
  apply h.balanced.busy
  change s.outstanding + _ ≠ 0
  omega

namespace Alike

variable {first second : List Entry} {answered : Prop} {s t : Session}

theorem step {past : List Session} (hr : Run past s) (h : Alike first second answered s t) :
    Alike first second answered s.step t.step := by
  rw [Session.step, Session.step, h.agenda]
  split
  · exact h
  next task rest ha =>
    have hrest : Alike first second answered { s with agenda := rest } { t with agenda := rest } :=
      { h with agenda := rfl }
    exact hrest.perform task (hr.processing_of_play ha)

theorem run {past : List Session} (hr : Run past s) (h : Alike first second answered s t)
    (n : Nat) : Alike first second answered (s.run n) (t.run n) := by
  induction n generalizing past s t with
  | zero => exact h
  | succ n ih =>
    rw [Session.run, Session.run, h.agenda]
    split
    · exact h
    · exact ih (hr.move (.step s)) (h.step hr)

theorem weight (h : Alike first second answered s t) : t.weight = s.weight := by
  rw [Session.weight, Session.weight, h.agenda, h.parked, h.driver.pending, h.hooks, h.engine]

theorem settle {past : List Session} (hr : Run past s) (h : Alike first second answered s t) :
    Alike first second answered s.settle t.settle := by
  rw [Session.settle, Session.settle, h.weight]
  exact h.run hr s.weight

theorem receive (h : Alike first second answered s t) (c : DriverCall) :
    Alike first second True (s.receive c) (t.receive c) :=
  { h with
    agenda := by rw [Session.receive, Session.receive, h.agenda]
    result := fun _ => rfl }

theorem requestAll {past : List Session} (hr : Run past s) (ha : s.agenda = [])
    (h : Alike first second answered s t) (calls : List DriverCall) :
    Alike first second (answered ∨ calls ≠ []) (s.requestAll calls) (t.requestAll calls) := by
  induction calls generalizing past answered s t with
  | nil => exact { h with result := fun hn => h.result (by simpa using hn) }
  | cons c calls ih =>
    obtain ⟨⟨later, hl⟩, hc⟩ := hr.request ha c
    have hs := (h.receive c).settle (hr.move (.receive c ha))
    have hall := ih hl hc hs
    exact { hall with result := fun _ => hall.result (.inl trivial) }

end Alike

theorem engineCall_language (s : Session) :
    s.engineCall Driver.language =
      ({ s with engine := (Driver.language.run s.engine).world },
        (Driver.language.run s.engine).result) := by
  have hm : (Driver.language.run s.engine).events = [] :=
    List.eq_nil_iff_forall_not_mem.mpr (ScriptedEngine.shows_language (fun _ => False) s.engine)
  rw [engineCall, hm]
  simp [log]

theorem engineCall_submission_of_error {s t : Session} {document : String} {e : Error}
    (h : s.engineCall (Pipeline.submission document) = (t, .error e)) :
    t = { s with engine := t.engine }.log [.engine (.rejected document)] := by
  obtain ⟨rfl, hr⟩ := Prod.mk.inj h
  rw [Pipeline.events_submission_of_error hr]
  rfl

/-- A call to speak is refused for want of a language, or by the engine while nothing is in
progress, and changes nothing but the engine and a flag that has nothing to stop. -/
theorem speak_of_refused {s : Session} {caller : Caller} {items : List SpeechItem} {e : Error}
    (h : (s.speak caller items).agenda.head? = some (.answer caller (.refused e))) :
    ∃ engine driver shown,
      s.speak caller items =
        { s with
          agenda := .answer caller (.refused e) :: s.agenda
          engine
          driver
          journal := s.journal ++ shown } ∧
      s.driver.Alike driver ∧
      ((Driver.language.run s.engine).result = .error e ∧ shown = [] ∨
        s.driver.processing = false ∧ ∃ language,
          (Driver.language.run s.engine).result = .ok language ∧
          shown = [.engine (.rejected (s.driver.document language items))]) := by
  have hl := s.engineCall_language
  rw [speak, hl] at h ⊢
  cases hr : (Driver.language.run s.engine).result with
  | error e' =>
    rw [hr] at h
    cases h
    refine ⟨(Driver.language.run s.engine).world, s.driver, [], ?_, .refl _, .inl ⟨rfl, rfl⟩⟩
    rw [List.append_nil]
    rfl
  | ok language =>
    rw [hr] at h
    dsimp only at h ⊢
    split at h
    · cases h
    next hp =>
      rw [if_neg hp]
      split at h
      next u progress hu => cases progress <;> cases h
      next u e' hu =>
        cases h
        rw [engineCall_submission_of_error hu]
        refine ⟨u.engine, { s.driver with processing := false, cancelled := false },
          [.engine (.rejected (s.driver.document language items))], rfl, ?_,
          .inr ⟨Bool.eq_false_iff.mpr hp, language, rfl, rfl⟩⟩
        have hp : s.driver.processing = false := Bool.eq_false_iff.mpr hp
        exact .of_idle rfl rfl hp rfl

theorem alike_without {s : Session} {driver : Driver} (hd : s.driver.Alike driver)
    (engine : ScriptedEngine) (shown : List Entry) (caller : Caller) (a : Answer) :
    let answered := ({ s with engine, driver, journal := s.journal ++ shown } : Session).perform
      (.answer caller a)
    Alike answered.journal s.journal False answered { s with engine } := by
  have hs : ∀ journal : List Entry, journal = journal ++ [] := fun _ => (List.append_nil _).symm
  cases caller with
  | outside => exact ⟨rfl, rfl, hd.symm, rfl, rfl, rfl, rfl, rfl, ⟨[], hs _, hs _⟩, False.elim⟩
  | hook => exact ⟨rfl, rfl, hd.symm, rfl, rfl, rfl, rfl, rfl, ⟨[], hs _, hs _⟩, False.elim⟩

/-- A call to speak that fails makes no output, and leaves the queue, the settings and what is in
progress as they were. Whatever is called then leads to the same calls, submissions and answers as
if it had not been made, with the engine as it left it. -/
theorem failed_speak_without_effect {past : List Session} {s : Session} (h : Run past s)
    {caller : Caller} {items : List SpeechItem} {rest : List Task} {e : Error}
    (hs : s.agenda = .call caller (.speak items) :: rest)
    (he : s.step.agenda.head? = some (.answer caller (.refused e))) :
    ∃ engine driver shown,
      s.step =
        { s with
          agenda := .answer caller (.refused e) :: rest
          engine
          driver
          journal := s.journal ++ shown } ∧
      s.driver.Alike driver ∧
      ((Driver.language.run s.engine).result = .error e ∧ shown = [] ∨
        s.driver.processing = false ∧ ∃ language,
          (Driver.language.run s.engine).result = .ok language ∧
          shown = [.engine (.rejected (s.driver.document language items))]) ∧
      ∀ calls,
        let made := s.step.step.settle.requestAll calls
        let unmade := ({ s with agenda := rest, engine } : Session).settle.requestAll calls
        (∃ later, made.journal = s.step.step.journal ++ later ∧
          unmade.journal = s.journal ++ later) ∧
        (calls ≠ [] → unmade.result = made.result) := by
  have hstep : s.step = ({ s with agenda := rest } : Session).speak caller items := by
    rw [step, hs]
    rfl
  obtain ⟨engine, driver, shown, heq, hd, hcause⟩ := speak_of_refused (hstep ▸ he)
  refine ⟨engine, driver, shown, hstep.trans heq, hd, hcause, ?_⟩
  intro calls
  have hr := (h.move (.step s)).move (.step s.step)
  have halike : Alike s.step.step.journal s.journal False s.step.step
      { s with agenda := rest, engine } := by
    rw [hstep, heq]
    exact alike_without (s := { s with agenda := rest }) hd engine shown caller (.refused e)
  obtain ⟨later, hl⟩ := hr.steps s.step.step.weight
  have hall := (halike.settle hr).requestAll hl (agenda_settle _) calls
  exact ⟨hall.shown, fun hn => hall.result (.inr hn)⟩

def turnedAway : Session :=
  ((fresh (oneVoice .manual [⟨[], [], some (.rejected (.engine "busy"))⟩])).request .cancel).receive
    (.speak [.text "a"])

theorem refused_after_cancel_without_effect :
    ∃ past, Run past turnedAway ∧
      turnedAway.agenda = [.call .outside (.speak [.text "a"])] ∧
      turnedAway.step.agenda.head? = some (.answer .outside (.refused (.engine "busy"))) ∧
      (turnedAway.driver.cancelled = true ∧ turnedAway.step.driver.cancelled = false) ∧
      ∃ engine driver shown,
        turnedAway.step =
          { turnedAway with
            agenda := [.answer .outside (.refused (.engine "busy"))]
            engine
            driver
            journal := turnedAway.journal ++ shown } ∧
        turnedAway.driver.Alike driver ∧
        ∀ calls,
          let made := turnedAway.step.step.settle.requestAll calls
          let unmade := ({ turnedAway with agenda := [], engine } : Session).settle.requestAll calls
          (∃ later, made.journal = turnedAway.step.step.journal ++ later ∧
            unmade.journal = turnedAway.journal ++ later) ∧
          (calls ≠ [] → unmade.result = made.result) := by
  obtain ⟨⟨past, h⟩, ha⟩ := (Run.start ⟨.standard, 44, fun _ => true⟩ true []
    (oneVoice .manual [⟨[], [], some (.rejected (.engine "busy"))⟩])).request rfl .cancel
  have hr : Run _ turnedAway := h.move (.receive (.speak [.text "a"]) ha)
  have hs : turnedAway.agenda = [.call .outside (.speak [.text "a"])] := rfl
  have he : turnedAway.step.agenda.head? = some (.answer .outside (.refused (.engine "busy"))) :=
    rfl
  obtain ⟨engine, driver, shown, hstep, hd, _, hlater⟩ := failed_speak_without_effect hr hs he
  exact ⟨_, hr, hs, he, by decide, engine, driver, shown, hstep, hd, hlater⟩

end Session

end SpeechBridge

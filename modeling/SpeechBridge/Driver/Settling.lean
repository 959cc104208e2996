import SpeechBridge.Driver.Consumption

/-!
# Sessions settle

Each step makes a session with a task on its agenda lighter. Main statement: a session that runs
as many steps as it weighs has done everything there was to do.
-/
namespace SpeechBridge

namespace Session

theorem weight_push (s : Session) (tasks : List Task) :
    (s.push tasks).weight = s.weight + total Task.weight tasks := by
  simp only [push, weight, total_append]
  omega

theorem weight_log (s : Session) (entries : List Entry) : (s.log entries).weight = s.weight := rfl

theorem weight_answer (s : Session) (caller : Caller) (a : Answer) :
    (s.answer caller a).weight = s.weight + 1 := by
  simp [answer, weight_push, Task.weight]

theorem weight_place (s : Session) (p : Progress Outcome Outcome Unit) :
    (s.place p).weight = s.weight + p.weight := by
  cases p with
  | waiting job =>
    simp only [place, weight, Progress.weight, total_append, total_cons, total_nil]
    omega
  | ended _ fate => simp [place, weight_push, Task.weight, Progress.weight]

theorem weight_updateDriver (s : Session) (f : Driver → Driver) :
    (s.updateDriver f).weight + 11 * s.driver.pending.length =
      s.weight + 11 * (f s.driver).pending.length := by
  simp only [updateDriver, weight]
  omega

theorem weight_engineCall {α : Type} (s : Session) (act : Act ScriptedEngine EngineEvent α) :
    (s.engineCall act).1.weight + s.engine.scriptWeight =
      s.weight + (act.run s.engine).world.scriptWeight := by
  simp only [engineCall, log, weight]
  omega

theorem weight_engineCall_of_keeps {α : Type} (s : Session)
    {act : Act ScriptedEngine EngineEvent α} (h : Act.Keeps ScriptedEngine.script act) :
    (s.engineCall act).1.weight = s.weight := by
  have hw := s.weight_engineCall act
  rw [ScriptedEngine.scriptWeight, ScriptedEngine.scriptWeight, h s.engine] at hw
  omega

theorem weight_forward {α : Type} (s : Session) (caller : Caller)
    {act : Act ScriptedEngine EngineEvent α} (h : Act.Keeps ScriptedEngine.script act)
    (value : α → Value) : (s.forward caller act value).weight = s.weight + 1 := by
  simp only [forward, weight_answer, weight_engineCall_of_keeps s h]

theorem weight_resume (s : Session) (job : DriverJob) :
    (s.resume job).weight < s.weight + job.weight := by
  have hl := Pipeline.light_resume s.engine job
  have hpos := job.weight_pos
  have hscript := hl.1
  have := hl.2
  simp only [resume, weight_place, weight_log]
  simp only [weight, ScriptedEngine.scriptWeight, hscript]
  omega

theorem weight_submit {s t : Session} {document : String} {progress : Progress Outcome Outcome Unit}
    (h : s.engineCall (Pipeline.submission document) = (t, .ok progress)) :
    (t.place progress).weight ≤ s.weight + 11 := by
  have hw := s.weight_engineCall (Pipeline.submission document)
  have hr : ((Pipeline.submission document).run s.engine).result = .ok progress :=
    congrArg Prod.snd h
  have := Pipeline.weight_of_submission hr
  rw [h] at hw
  rw [weight_place]
  dsimp only at hw
  omega

theorem weight_submit_of_error {s t : Session} {document : String} {e : Error}
    (h : s.engineCall (Pipeline.submission document) = (t, .error e)) : t.weight ≤ s.weight := by
  have hw := s.weight_engineCall (Pipeline.submission document)
  have := Pipeline.scriptWeight_submission document s.engine
  rw [h] at hw
  dsimp only at hw
  omega

theorem weight_speak (s : Session) (caller : Caller) (items : List SpeechItem) :
    (s.speak caller items).weight ≤ s.weight + 12 := by
  have hl := s.weight_engineCall_of_keeps ScriptedEngine.keeps_language
  rw [speak]
  split
  next t _ h =>
    rw [h] at hl
    rw [weight_answer]
    dsimp only at hl
    omega
  next t language h =>
    rw [h] at hl
    dsimp only at hl ⊢
    split
    · have hu := t.weight_updateDriver fun d =>
        { d with pending := d.pending ++ [t.driver.document language items] }
      simp only [List.length_append, List.length_singleton] at hu
      rw [weight_answer]
      omega
    · have hu := t.weight_updateDriver fun d => { d with processing := true, cancelled := false }
      dsimp only at hu
      split
      next u progress h =>
        have hs := weight_submit h
        simp only [weight_place, weight_answer] at hs ⊢
        omega
      next u e h =>
        have hs := weight_submit_of_error h
        have hv := u.weight_updateDriver fun d => { d with processing := false }
        dsimp only at hv
        rw [weight_answer]
        omega

theorem weight_cancel (s : Session) (caller : Caller) :
    (s.cancel caller).weight ≤ s.weight + 2 := by
  have hu := s.weight_updateDriver fun d => { d with cancelled := true, pending := [] }
  simp only [cancel, weight_push, total_cons, total_nil,
    Task.weight, List.length_nil] at hu ⊢
  omega

theorem weight_advanceThrough (s : Session) (documents : List String) :
    (s.advanceThrough documents).weight + 11 * s.driver.pending.length ≤
      s.weight + 11 * documents.length + 1 := by
  induction documents generalizing s with
  | nil =>
    have hu := s.weight_updateDriver fun d => { d with pending := [], processing := false }
    simp only [advanceThrough, weight_push, total_cons, total_nil, Task.weight, List.length_nil] at hu ⊢
    omega
  | cons document rest ih =>
    have hu := s.weight_updateDriver fun d => { d with pending := rest, cancelled := false }
    dsimp only at hu
    unfold advanceThrough
    dsimp only
    rw [List.length_cons]
    split
    next t progress h =>
      have hs := weight_submit h
      omega
    next t e h =>
      have hs := weight_submit_of_error h
      have hp : t.driver.pending = rest := by
        rw [← congrArg (fun p => p.1.driver.pending) h]
        rfl
      have hi := ih (t.log [.warn ("Could not submit queued speech: " ++ e.message)])
      rw [weight_log] at hi
      have : (t.log [.warn ("Could not submit queued speech: " ++ e.message)]).driver.pending =
        rest := hp
      rw [this] at hi
      omega

theorem weight_advance (s : Session) : s.advance.weight ≤ s.weight + 1 := by
  have := s.weight_advanceThrough s.driver.pending
  rw [advance]
  omega

theorem weight_output (s : Session) (call : OutputCall) : (s.output call).weight = s.weight := by
  have hf := total_filter_add (fun h : Hook => h.call.weight) (s.fires call) s.hooks
  rw [output, weight_push, weight_log, total_map]
  simp only [weight, Task.weight]
  omega

theorem weight_land (s : Session) (fate : Fate) :
    (s.land fate).weight < s.weight + fate.weight := by
  cases fate with
  | delivered audio markers =>
    have := Playback.weight_start s.config.format (Driver.playable s.config audio) markers
    simp only [land, weight_push, total_cons, total_nil, Task.weight, Fate.weight]
    omega
  | failed e => simp [land, weight_push, weight_log, Task.weight, Fate.weight]
  | dropped => simp [land, Fate.weight]

theorem weight_call (s : Session) (caller : Caller) (c : DriverCall) :
    (s.call caller c).weight < s.weight + c.weight := by
  cases c with
  | speak items =>
    have := s.weight_speak caller items
    simp only [call, DriverCall.weight]
    omega
  | cancel =>
    have := s.weight_cancel caller
    simp only [call, DriverCall.weight]
    omega
  | setRate percent =>
    have hu := s.weight_updateDriver (·.setRate percent)
    simp only [call, DriverCall.weight, weight_forward _ _ (ScriptedEngine.keeps_sendRate _)]
    simp only [Driver.setRate] at hu ⊢
    omega
  | setPitch percent =>
    have hu := s.weight_updateDriver (·.setPitch percent)
    simp only [call, DriverCall.weight, weight_forward _ _ (ScriptedEngine.keeps_sendPitch _)]
    simp only [Driver.setPitch] at hu ⊢
    omega
  | setVolume percent =>
    have hu := s.weight_updateDriver (·.setVolume percent)
    simp only [call, DriverCall.weight, weight_answer]
    simp only [Driver.setVolume] at hu ⊢
    omega
  | voices onlyValid =>
    simp only [call, DriverCall.weight]
    rw [weight_forward _ _ (ScriptedEngine.keeps_voices s.config onlyValid)]
    omega
  | voice =>
    simp only [call, DriverCall.weight]
    rw [weight_forward _ _ ScriptedEngine.keeps_voiceId]
    omega
  | language =>
    simp only [call, DriverCall.weight]
    rw [weight_forward _ _ ScriptedEngine.keeps_language]
    omega
  | setVoice id =>
    simp only [call, DriverCall.weight]
    rw [weight_forward _ _ (ScriptedEngine.keeps_select id)]
    omega
  | complete index =>
    simp only [call, DriverCall.weight]
    split
    · rw [weight_answer]
      omega
    next job h =>
      have hr := ({ s with parked := s.parked.eraseIdx index }.answer caller
        (.returned (.flag true))).weight_resume job
      have he := total_eraseIdx Job.weight h
      rw [weight_answer] at hr
      simp only [weight] at hr ⊢
      omega
  | completeAll => simp [call, weight_push, Task.weight, DriverCall.weight]
  | direct d =>
    have hw := s.weight_engineCall d.act
    have hd := ScriptedEngine.scriptWeight_direct d s.engine
    simp only [call, forward, weight_answer]
    omega

/-- A task causes less than it weighs. -/
theorem weight_perform (s : Session) (task : Task) :
    (s.perform task).weight < s.weight + task.weight := by
  cases task with
  | call caller c => exact s.weight_call caller c
  | answer caller a =>
    cases caller with
    | outside => exact Nat.lt_succ_self s.weight
    | hook => exact Nat.lt_succ_self s.weight
  | drain caller count =>
    simp only [perform, Task.weight]
    split
    · rw [weight_answer]
      omega
    next job rest h =>
      have hr := ({ s with parked := rest }.push [.drain caller (count + 1)]).weight_resume job
      simp only [weight_push, total_cons, total_nil,
        Task.weight] at hr
      simp only [weight, h, total_cons] at hr ⊢
      omega
  | output c =>
    simp only [perform, weight_output, Task.weight]
    omega
  | land fate => exact s.weight_land fate
  | play rest =>
    simp only [perform, Task.weight]
    split
    next c q h =>
      have := Playback.weight_next h
      simp only [weight_push, total_cons, total_nil,
        Task.weight]
      omega
    · simp only [weight_push, total_cons, total_nil, Task.weight]
      omega
  | advance =>
    have := s.weight_advance
    simp only [perform, Task.weight]
    omega

theorem weight_step {s : Session} (h : s.agenda ≠ []) : s.step.weight < s.weight := by
  rw [step]
  split
  · contradiction
  next task rest ha =>
    have hp := ({ s with agenda := rest }).weight_perform task
    simp only [weight, ha, total_cons] at hp ⊢
    omega

theorem agenda_run {n : Nat} {s : Session} (h : s.weight ≤ n) : (s.run n).agenda = [] := by
  induction n generalizing s with
  | zero =>
    cases ha : s.agenda with
    | nil => exact ha
    | cons task rest =>
      have := weight_step (s := s) (by simp [ha])
      omega
  | succ n ih =>
    rw [run]
    split
    next ha => exact List.isEmpty_iff.1 ha
    next ha =>
      have := weight_step (s := s) fun h => ha (List.isEmpty_iff.2 h)
      exact ih (by omega)

theorem agenda_settle (s : Session) : s.settle.agenda = [] := agenda_run (Nat.le_refl _)

theorem agenda_request (s : Session) (c : DriverCall) : (s.request c).agenda = [] :=
  agenda_settle _

end Session

end SpeechBridge

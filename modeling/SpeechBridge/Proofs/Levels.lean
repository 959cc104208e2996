import SpeechBridge.Proofs.Bookkeeping
import SpeechBridge.Proofs.Utterances

/-!
# Levels on both sides

An engine cannot report its rate and its pitch, so a driver keeps them as well, each from the moment
on that it is asked for it, before the engine has replied. Main statement: after a call the two
sides agree exactly if the engine grants the level or has accepted it before, as the last one, and a
call that fails leaves alone what the driver shows exactly if it asks for that.
-/
namespace SpeechBridge

namespace Level

theorem percent_of_le : ∀ n ≤ 100, (ofPercent n).percent = n := by decide +kernel

theorem percent_ofPercent (n : Nat) : (ofPercent n).percent = min n 100 := by
  have hn : ofPercent n = ofPercent (min n 100) := by
    simp only [ofPercent, Nat.min_assoc, Nat.min_self]
  rw [hn, percent_of_le _ (Nat.min_le_right _ _)]

theorem ofPercent_eq_iff {m n : Nat} :
    ofPercent m = ofPercent n ↔ (ofPercent m).percent = (ofPercent n).percent := by
  constructor
  · exact congrArg percent
  · intro h
    rw [percent_ofPercent, percent_ofPercent] at h
    simp only [ofPercent, h]

theorem eq_of_value {l m : Level} (h : l.value = m.value) : l = m := by
  cases l
  cases m
  cases h
  rfl

end Level

theorem VoiceProperty.eq_of_engineName {p q : VoiceProperty} (h : p.engineName = q.engineName) :
    p = q := by
  have ho := p.ofEngineName_engineName
  rw [h, q.ofEngineName_engineName] at ho
  exact (Option.some.inj ho).symm

def Driver.level (d : Driver) : VoiceProperty → Level
  | .speakRate => d.settings.rate
  | .pitch => d.settings.pitch

def EngineEvent.value? (p : VoiceProperty) : EngineEvent → Option Int
  | propertySet name value => if name = p.engineName then some value else none
  | _ => none

def Entry.value? (p : VoiceProperty) : Entry → Option Int
  | engine event => event.value? p
  | _ => none

def DriverCall.level? : VoiceProperty → DriverCall → Option Level
  | .speakRate, setRate percent | .pitch, setPitch percent => some (.ofPercent percent)
  | _, _ => none

def DriverCall.asking : VoiceProperty → Nat → DriverCall
  | .speakRate, percent => setRate percent
  | .pitch, percent => setPitch percent

theorem DriverCall.exists_asking {p : VoiceProperty} {c : DriverCall} {level : Level}
    (h : c.level? p = some level) :
    ∃ percent, c = asking p percent ∧ level = .ofPercent percent := by
  cases c with
  | setRate percent =>
    cases p with
    | speakRate => exact ⟨percent, rfl, (Option.some.inj h).symm⟩
    | pitch => cases h
  | setPitch percent =>
    cases p with
    | speakRate => cases h
    | pitch => exact ⟨percent, rfl, (Option.some.inj h).symm⟩
  | _ => cases p <;> cases h

def Task.level? (p : VoiceProperty) : Task → Option Level
  | call _ c => c.level? p
  | _ => none

/-- A level is asked for, and the engine replies. -/
structure Adjustment where
  level : Level
  reply : Except Error Unit

namespace Adjustment

def granted (a : Adjustment) : Bool := a.reply.isOk

def answer (a : Adjustment) : Answer := .ofExcept (a.reply.map fun () => .done)

end Adjustment

/-- The level that is kept of a property, and the values that the engine has accepted for it. -/
structure Sides where
  kept : Level
  accepted : List Int

namespace Sides

def adjust (x : Sides) (a : Adjustment) : Sides :=
  ⟨a.level, if a.granted then x.accepted ++ [a.level.value] else x.accepted⟩

def InStep (x : Sides) : Prop := x.accepted.getLast? = some x.kept.value

/-- The sides agree if the level is granted, or is the one that was accepted last. -/
theorem inStep_adjust_iff {x : Sides} {a : Adjustment} :
    (x.adjust a).InStep ↔
      a.granted = true ∨ x.accepted.getLast? = some a.level.value := by
  rw [InStep, adjust]
  cases a.granted with
  | true => simp
  | false => simp

theorem kept_foldl_adjust (x : Sides) (as : List Adjustment) :
    (as.foldl adjust x).kept = (as.getLast?.map Adjustment.level).getD x.kept := by
  induction as using List.reverseRecOn with
  | nil => rfl
  | append_singleton as a ih => simp [adjust]

theorem accepted_foldl_adjust (x : Sides) (as : List Adjustment) :
    (as.foldl adjust x).accepted =
      x.accepted ++ (as.filter Adjustment.granted).map (·.level.value) := by
  induction as using List.reverseRecOn with
  | nil => simp
  | append_singleton as a ih =>
    rw [List.foldl_append, List.foldl_cons, List.foldl_nil, adjust, ih]
    cases hg : a.granted with
    | true => simp [hg]
    | false => simp [hg]

end Sides

namespace ScriptedEngine

abbrev Spares {α : Type} (p : VoiceProperty) (act : Act ScriptedEngine EngineEvent α) : Prop :=
  Act.Shows (fun e => e.value? p = none) act

theorem events_setProperty (name : String) (value : Int) (s : ScriptedEngine) :
    ((setProperty name value).run s).events =
      if ((setProperty name value).run s).result.isOk then [.propertySet name value] else [] := by
  rw [setProperty]
  cases hr : ((pass .setProperty).run s).result with
  | error e =>
    rw [Act.run_bind_of_error hr]
    rfl
  | ok _ =>
    rw [Act.run_bind_of_ok hr]
    rfl

theorem spares_setProperty {p q : VoiceProperty} (h : q ≠ p) (value : Int) :
    Spares p (setProperty q.engineName value) := by
  apply shows_setProperty
  rw [EngineEvent.value?, if_neg fun he => h (VoiceProperty.eq_of_engineName he)]

end ScriptedEngine

namespace Session

open ScriptedEngine (Spares)

/-- The values that the engine has accepted for the property. -/
def values (p : VoiceProperty) (s : Session) : List Int := s.journal.filterMap (Entry.value? p)

def sides (p : VoiceProperty) (s : Session) : Sides := ⟨s.driver.level p, s.values p⟩

/-- The driver keeps the value that the engine has accepted last. -/
def InStep (p : VoiceProperty) (s : Session) : Prop := (s.sides p).InStep

def replyTo (s : Session) (p : VoiceProperty) (level : Level) : Except Error Unit :=
  ((ScriptedEngine.setProperty p.engineName level.value).run s.engine).result

def adjustment? (p : VoiceProperty) (s : Session) : Option Adjustment :=
  (s.agenda.head?.bind (Task.level? p)).map fun level => ⟨level, s.replyTo p level⟩

def adjustments (p : VoiceProperty) (past : List Session) : List Adjustment :=
  past.filterMap (adjustment? p)

variable {p : VoiceProperty}

theorem sides_log {s : Session} {entries : List Entry} (h : ∀ e ∈ entries, e.value? p = none) :
    (s.log entries).sides p = s.sides p := by
  have hn : entries.filterMap (Entry.value? p) = [] := List.filterMap_eq_nil_iff.mpr h
  simp only [sides, values, log, List.filterMap_append, hn, List.append_nil]

theorem level_of_settings {d e : Driver} (h : d.settings = e.settings) : d.level p = e.level p := by
  cases p with
  | speakRate => exact congrArg Settings.rate h
  | pitch => exact congrArg Settings.pitch h

theorem apart_sides (p : VoiceProperty) : Apart (sides p) fun e => e.value? p = none where
  push _ _ := rfl
  park _ _ := rfl
  result _ _ := rfl
  note s entry h := by
    apply sides_log
    intro e he
    rw [List.mem_singleton.mp he]
    cases entry with
    | engine event => exact h event rfl
    | _ => rfl
  engine _ _ := rfl
  driver s f h := by
    have hl : (f s.driver).level p = s.driver.level p := level_of_settings (h s.driver)
    simp only [sides, updateDriver, hl, values]

theorem sides_call (s : Session) (caller : Caller) {c : DriverCall} (h : c.level? p = none) :
    (s.call caller c).sides p = s.sides p := by
  cases hc : c.sets with
  | false =>
    exact (apart_sides p).call (fun _ => rfl) (fun _ => rfl) (fun _ => rfl) s caller hc
  | true =>
    cases c with
    | setRate percent =>
      cases p with
      | speakRate => cases h
      | pitch =>
        exact (apart_sides .pitch).forward _ _
          (ScriptedEngine.spares_setProperty (by decide) _) _
    | setPitch percent =>
      cases p with
      | speakRate =>
        exact (apart_sides .speakRate).forward _ _
          (ScriptedEngine.spares_setProperty (by decide) _) _
      | pitch => cases h
    | setVolume percent => rfl
    | _ => cases hc

theorem sides_output (s : Session) (call : OutputCall) : (s.output call).sides p = s.sides p := by
  have hl : ∀ e ∈ s.shown call, e.value? p = none := by
    intro e he
    rw [shown] at he
    split at he
    · cases he
    · rw [List.mem_singleton.mp he]
      rfl
  rw [output, (apart_sides p).push, sides_log hl]
  rfl

theorem sides_perform (s : Session) {task : Task} (h : task.level? p = none) :
    (s.perform task).sides p = s.sides p := by
  cases task with
  | call caller c => exact s.sides_call caller h
  | output c => exact s.sides_output c
  | _ => exact (apart_sides p).perform (fun _ => rfl) (fun _ => rfl) s (by simp) (by simp)

theorem values_setProperty (p : VoiceProperty) (value : Int) (s : ScriptedEngine) :
    ((ScriptedEngine.setProperty p.engineName value).run s).events.filterMap
        (EngineEvent.value? p) =
      if ((ScriptedEngine.setProperty p.engineName value).run s).result.isOk then [value]
      else [] := by
  rw [ScriptedEngine.events_setProperty]
  split
  · simp [EngineEvent.value?]
  · rfl

theorem forward_adjusts (s : Session) (caller : Caller) {f : Driver → Driver} {level : Level}
    (h : (f s.driver).level p = level) :
    let t := (s.updateDriver f).forward caller
      (ScriptedEngine.setProperty p.engineName level.value) fun () => .done
    t.sides p = (s.sides p).adjust ⟨level, s.replyTo p level⟩ ∧
      t.agenda = .answer caller (Adjustment.answer ⟨level, s.replyTo p level⟩) :: s.agenda := by
  have hv := values_setProperty p level.value s.engine
  constructor
  · rw [Sides.adjust, Adjustment.granted, replyTo]
    simp only [sides, forward, engineCall, answer, push, log, updateDriver, values,
      List.filterMap_append, List.filterMap_map, Function.comp_def, Entry.value?, h, hv,
      Sides.mk.injEq, true_and]
    split <;> simp
  · rw [Adjustment.answer, replyTo]
    simp only [forward, engineCall, answer, push, log, updateDriver, List.singleton_append]
    cases ((ScriptedEngine.setProperty p.engineName level.value).run s.engine).result <;> rfl

theorem call_adjusts (s : Session) (caller : Caller) {c : DriverCall} {level : Level}
    (h : c.level? p = some level) :
    (s.call caller c).sides p = (s.sides p).adjust ⟨level, s.replyTo p level⟩ ∧
      (s.call caller c).agenda =
        .answer caller (Adjustment.answer ⟨level, s.replyTo p level⟩) :: s.agenda := by
  obtain ⟨percent, rfl, rfl⟩ := DriverCall.exists_asking h
  cases p with
  | speakRate => exact s.forward_adjusts (p := .speakRate) (f := (·.setRate percent)) caller rfl
  | pitch => exact s.forward_adjusts (p := .pitch) (f := (·.setPitch percent)) caller rfl

theorem exists_call_of_adjustment {s : Session} {a : Adjustment} (h : s.adjustment? p = some a) :
    ∃ caller c rest, s.agenda = .call caller c :: rest ∧ c.level? p = some a.level ∧
      a.reply = s.replyTo p a.level := by
  unfold adjustment? at h
  cases ha : s.agenda with
  | nil => simp [ha] at h
  | cons task rest =>
    rw [ha] at h
    obtain ⟨level, hl, rfl⟩ := Option.map_eq_some_iff.mp h
    cases task with
    | call caller c => exact ⟨caller, c, rest, rfl, hl, rfl⟩
    | _ => cases hl

theorem step_of_adjustment {s : Session} {a : Adjustment} (h : s.adjustment? p = some a) :
    s.step.sides p = (s.sides p).adjust a ∧
      ∃ caller rest, s.step.agenda = .answer caller a.answer :: rest := by
  obtain ⟨caller, c, rest, ha, hl, hr⟩ := exists_call_of_adjustment h
  obtain ⟨hsides, hagenda⟩ := call_adjusts { s with agenda := rest } caller hl
  have hs : s.step = ({ s with agenda := rest } : Session).call caller c := by
    rw [step, ha]
    rfl
  have hreply : ({ s with agenda := rest } : Session).replyTo p a.level = a.reply := hr.symm
  rw [hreply] at hsides hagenda
  rw [hs]
  exact ⟨hsides, caller, rest, hagenda⟩

theorem step_of_no_adjustment {s : Session} (h : s.adjustment? p = none) :
    s.step.sides p = s.sides p := by
  unfold adjustment? at h
  rw [step]
  split
  · rfl
  next task rest ha =>
    rw [ha] at h
    have hl : task.level? p = none := Option.map_eq_none_iff.mp h
    exact sides_perform { s with agenda := rest } hl

/-- Nothing but an adjustment changes the sides of a property. -/
theorem sides_move {s t : Session} (h : Move s t) :
    t.sides p = (s.adjustment? p).elim (s.sides p) (s.sides p).adjust := by
  cases h with
  | step =>
    cases ha : s.adjustment? p with
    | none => exact step_of_no_adjustment ha
    | some a => exact (step_of_adjustment ha).1
  | receive c he => simp [adjustment?, he, receive, sides, values]

theorem Run.first {past : List Session} {s : Session} (h : Run past s) :
    ∃ config reportsIdle hooks engine,
      (past ++ [s]).head? = some (Session.start config reportsIdle hooks engine) := by
  induction h with
  | start config reportsIdle hooks engine => exact ⟨config, reportsIdle, hooks, engine, rfl⟩
  | move _ _ ih => simpa using ih

theorem values_attempt (p q : VoiceProperty) (value : Int) (label : String) (w : ScriptedEngine) :
    ((Driver.attempt (ScriptedEngine.setProperty q.engineName value) label w).2.map
        Entry.ofNote).filterMap (Entry.value? p) =
      ((ScriptedEngine.setProperty q.engineName value).run w).events.filterMap
        (EngineEvent.value? p) := by
  rw [Driver.attempt]
  cases ((ScriptedEngine.setProperty q.engineName value).run w).result with
  | ok _ => simp [Function.comp_def, Entry.ofNote, Entry.value?]
  | error e => simp [Function.comp_def, Entry.ofNote, Entry.value?]

theorem values_start (p : VoiceProperty) (config : DriverConfig) (reportsIdle : Bool)
    (hooks : List Hook) (engine : ScriptedEngine) :
    ∃ w, (start config reportsIdle hooks engine).values p =
      ((ScriptedEngine.setProperty VoiceProperty.speakRate.engineName 0).run
        engine).events.filterMap (EngineEvent.value? p) ++
      ((ScriptedEngine.setProperty VoiceProperty.pitch.engineName 0).run
        w).events.filterMap (EngineEvent.value? p) := by
  have hj : (start config reportsIdle hooks engine).journal =
      (Driver.start.introduce engine).2.map Entry.ofNote := rfl
  refine ⟨(Driver.attempt Driver.start.sendRate "Could not set the initial rate: " engine).1, ?_⟩
  rw [values, hj, Driver.introduce, List.map_append, List.filterMap_append]
  exact congrArg₂ _ (values_attempt p .speakRate 0 _ _) (values_attempt p .pitch 0 _ _)

theorem sides_start {config : DriverConfig} {reportsIdle : Bool} {hooks : List Hook}
    {engine : ScriptedEngine} (h : (start config reportsIdle hooks engine).values p ≠ []) :
    (start config reportsIdle hooks engine).sides p = ⟨.ofPercent 50, [0]⟩ := by
  obtain ⟨w, hv⟩ := values_start p config reportsIdle hooks engine
  have other (q : VoiceProperty) (hq : q ≠ p) (w : ScriptedEngine) :
      ((ScriptedEngine.setProperty q.engineName 0).run w).events.filterMap
        (EngineEvent.value? p) = [] :=
    List.filterMap_eq_nil_iff.mpr (ScriptedEngine.spares_setProperty hq 0 w)
  have hzero : (start config reportsIdle hooks engine).values p = [0] := by
    cases p with
    | speakRate =>
      rw [other .pitch (by decide), List.append_nil, values_setProperty] at hv
      split at hv
      · exact hv
      · exact absurd hv h
    | pitch =>
      rw [other .speakRate (by decide), List.nil_append, values_setProperty] at hv
      split at hv
      · exact hv
      · exact absurd hv h
  have hlevel : (start config reportsIdle hooks engine).driver.level p = .ofPercent 50 := by
    cases p <;> rfl
  rw [Session.sides, hzero, hlevel]

theorem Run.sides {past : List Session} {s first : Session} (h : Run past s)
    (hf : first ∈ (past ++ [s]).head?) :
    s.sides p = (adjustments p past).foldl Sides.adjust (first.sides p) := by
  induction h with
  | start =>
    cases hf
    rfl
  | @move past s t hr hm ih =>
    have hs := ih (by simpa using hf)
    rw [adjustments, List.filterMap_append, List.foldl_append, ← adjustments, ← hs, sides_move hm]
    cases ha : s.adjustment? p with
    | none => simp [ha]
    | some a => simp [ha]

theorem Run.step_mem {past : List Session} {s t : Session} (h : Run past s) (ht : t ∈ past)
    (ha : t.agenda ≠ []) : t.step ∈ past ++ [s] := by
  induction h with
  | start => cases ht
  | @move past s u hr hm ih =>
    rcases List.mem_append.mp ht with ht | ht
    · exact List.mem_append_left _ (ih ht)
    · obtain rfl := List.mem_singleton.mp ht
      cases hm with
      | step => simp
      | receive c he => exact absurd he ha

theorem exists_ofPercent_of_adjustment {s : Session} {a : Adjustment}
    (h : s.adjustment? p = some a) : ∃ n, a.level = .ofPercent n := by
  obtain ⟨_, c, _, _, hl, _⟩ := exists_call_of_adjustment h
  obtain ⟨percent, _, hlevel⟩ := DriverCall.exists_asking hl
  exact ⟨percent, hlevel⟩

theorem Run.exists_ofPercent {past : List Session} {s : Session} (h : Run past s) :
    ∃ n, s.driver.level p = .ofPercent n := by
  induction h with
  | start =>
    refine ⟨50, ?_⟩
    cases p <;> rfl
  | @move past s t hr hm ih =>
    have hk := congrArg Sides.kept (sides_move (p := p) hm)
    change t.driver.level p = _ at hk
    rw [hk]
    cases ha : s.adjustment? p with
    | none => exact ih
    | some a => exact exists_ofPercent_of_adjustment ha

theorem Run.percent_eq_iff {past : List Session} {s t : Session} (h : Run past s) (ht : t ∈ past)
    {a : Adjustment} (ha : t.adjustment? p = some a) :
    (t.step.driver.level p).percent = (t.driver.level p).percent ↔ a.level = t.driver.level p := by
  obtain ⟨earlier, later, rfl⟩ := List.append_of_mem ht
  obtain ⟨m, hm⟩ := h.before.exists_ofPercent (p := p)
  obtain ⟨n, hn⟩ := exists_ofPercent_of_adjustment ha
  have hk : t.step.driver.level p = a.level := congrArg Sides.kept (step_of_adjustment ha).1
  rw [hk, hm, hn]
  exact Level.ofPercent_eq_iff.symm

theorem Run.sides_first {past : List Session} {s first : Session} (h : Run past s)
    (hf : first ∈ (past ++ [s]).head?) (hv : first.values p ≠ []) :
    first.sides p = ⟨.ofPercent 50, [0]⟩ := by
  obtain ⟨config, reportsIdle, hooks, engine, hs⟩ := h.first
  obtain rfl := Option.some.inj (hs.symm.trans hf)
  exact sides_start hv

/-- A refusal of what is kept already leaves the sides in step. -/
theorem inStep_move {s t : Session} (hm : Move s t) (hs : s.InStep p)
    (hc : ∀ a, s.adjustment? p = some a → a.granted = false → a.level = s.driver.level p) :
    t.InStep p := by
  rw [InStep, sides_move hm]
  cases ha : s.adjustment? p with
  | none => exact hs
  | some a =>
    apply Sides.inStep_adjust_iff.mpr
    cases hg : a.granted with
    | true => exact .inl rfl
    | false =>
      right
      rw [hc a ha hg]
      exact hs

/-- The sides are in step all along exactly if calls that are refused ask for what is kept. -/
theorem Run.inStep_iff {past : List Session} {s first : Session} (h : Run past s)
    (hf : first ∈ (past ++ [s]).head?) (hv : first.values p ≠ []) :
    (∀ t ∈ past ++ [s], t.InStep p) ↔
      ∀ t ∈ past, ∀ a, t.adjustment? p = some a → a.granted = false →
        a.level = t.driver.level p := by
  constructor
  · intro hall t ht a ha hg
    obtain ⟨_, _, _, hagenda, _, _⟩ := exists_call_of_adjustment ha
    have hnext := hall t.step (h.step_mem ht (by simp [hagenda]))
    rw [InStep, (step_of_adjustment ha).1, Sides.inStep_adjust_iff, hg] at hnext
    have hlast := hnext.resolve_left Bool.false_ne_true
    have hin := hall t (List.mem_append_left _ ht)
    exact Level.eq_of_value (Option.some.inj (hlast.symm.trans hin))
  · intro hc
    induction h with
    | start =>
      intro t ht
      obtain rfl := List.mem_singleton.mp ht
      cases hf
      rw [InStep, sides_start hv]
      rfl
    | @move past s u hr hm ih =>
      have hin := ih (by simpa using hf) fun t ht => hc t (List.mem_append_left _ ht)
      intro t ht
      rcases List.mem_append.mp ht with ht | ht
      · exact hin t ht
      · obtain rfl := List.mem_singleton.mp ht
        exact inStep_move hm (hin s (by simp)) (hc s (by simp))

/-- If a new driver has had its level of a property accepted, then in all of its run it keeps the
level that it was asked for last, and the engine has accepted the levels that it has granted. A call
that asks for a level leaves the two in step exactly if the level is granted or has been accepted
last; if it fails, what the driver shows stays as it is exactly if it is the level that is kept
already. So they are in step all along exactly if no other level is ever refused. -/
theorem levels_in_step_iff {past : List Session} {s first : Session} (h : Run past s)
    (hf : first ∈ (past ++ [s]).head?) (hv : first.values p ≠ []) :
    s.driver.level p =
        ((adjustments p past).getLast?.map Adjustment.level).getD (.ofPercent 50) ∧
    s.values p = 0 :: ((adjustments p past).filter Adjustment.granted).map (·.level.value) ∧
    (∀ t ∈ past, ∀ a, t.adjustment? p = some a →
      (t.step.InStep p ↔ a.granted = true ∨ (t.values p).getLast? = some a.level.value) ∧
      ∀ e, a.reply = .error e →
        (∃ caller rest, t.step.agenda = .answer caller (.refused e) :: rest) ∧
        ((t.step.driver.level p).percent = (t.driver.level p).percent ↔
          a.level = t.driver.level p)) ∧
    ((∀ t ∈ past ++ [s], t.InStep p) ↔
      ∀ t ∈ past, ∀ a, t.adjustment? p = some a → a.granted = false →
        a.level = t.driver.level p) := by
  have hsides := h.sides (p := p) hf
  rw [h.sides_first hf hv] at hsides
  refine ⟨?_, ?_, ?_, h.inStep_iff hf hv⟩
  · exact (congrArg Sides.kept hsides).trans (Sides.kept_foldl_adjust _ _)
  · exact (congrArg Sides.accepted hsides).trans (Sides.accepted_foldl_adjust _ _)
  · intro t ht a ha
    obtain ⟨hstep, caller, rest, hagenda⟩ := step_of_adjustment ha
    constructor
    · rw [InStep, hstep]
      exact Sides.inStep_adjust_iff
    · intro e he
      rw [Adjustment.answer, he] at hagenda
      exact ⟨⟨caller, rest, hagenda⟩, h.percent_eq_iff ht ha⟩

def refused : Session :=
  (fresh (oneVoice .manual [])).requestAll
    [.direct (.fail ⟨.setProperty, 1, .engine "set_property"⟩), .setRate 75]

def retried : Session := refused.request (.setRate 30)

theorem run_refused :
    ∃ past, Run past refused ∧ refused.agenda = [] ∧
      fresh (oneVoice .manual []) ∈ (past ++ [refused]).head? := by
  obtain ⟨⟨first, hf⟩, ha⟩ := (Run.start ⟨.standard, 44, fun _ => true⟩ true []
    (oneVoice .manual [])).request rfl (.direct (.fail ⟨.setProperty, 1, .engine "set_property"⟩))
  obtain ⟨⟨later, hl⟩, hr⟩ := hf.requestAll ha [.setRate 75]
  exact ⟨_, hl, hr, rfl⟩

theorem run_retried :
    ∃ past, Run past retried ∧ fresh (oneVoice .manual []) ∈ (past ++ [retried]).head? := by
  obtain ⟨past, h, ha, hf⟩ := run_refused
  obtain ⟨⟨later, hl⟩, _⟩ := h.request ha (.setRate 30)
  refine ⟨past ++ refused :: later, hl, ?_⟩
  cases past with
  | nil => exact hf
  | cons first past => exact hf

theorem retried_rate_in_step :
    ∃ past, Run past retried ∧ fresh (oneVoice .manual []) ∈ (past ++ [retried]).head? ∧
      (fresh (oneVoice .manual [])).values .speakRate ≠ [] ∧
      retried.driver.level .speakRate =
        ((adjustments .speakRate past).getLast?.map Adjustment.level).getD (.ofPercent 50) ∧
      retried.values .speakRate =
        0 :: ((adjustments .speakRate past).filter Adjustment.granted).map (·.level.value) ∧
      (∀ t ∈ past, ∀ a, t.adjustment? .speakRate = some a →
        (t.step.InStep .speakRate ↔
          a.granted = true ∨ (t.values .speakRate).getLast? = some a.level.value) ∧
        ∀ e, a.reply = .error e →
          (∃ caller rest, t.step.agenda = .answer caller (.refused e) :: rest) ∧
          ((t.step.driver.level .speakRate).percent = (t.driver.level .speakRate).percent ↔
            a.level = t.driver.level .speakRate)) ∧
      ((∀ t ∈ past ++ [retried], t.InStep .speakRate) ↔
        ∀ t ∈ past, ∀ a, t.adjustment? .speakRate = some a → a.granted = false →
          a.level = t.driver.level .speakRate) := by
  obtain ⟨past, h, hf⟩ := run_retried
  have hv : (fresh (oneVoice .manual [])).values .speakRate ≠ [] := by decide +kernel
  exact ⟨past, h, hf, hv, levels_in_step_iff h hf hv⟩

/-- A driver shows a rate that the engine has refused. -/
theorem refused_rate_shown :
    ∃ past, Run past refused ∧ fresh (oneVoice .manual []) ∈ (past ++ [refused]).head? ∧
      (∀ p, (fresh (oneVoice .manual [])).values p = [0]) ∧
      ((fresh (oneVoice .manual [])).driver.level .speakRate).percent = 50 ∧
      refused.result = some (.refused (.engine "set_property")) ∧
      (refused.driver.level .speakRate).percent = 75 ∧
      refused.values .speakRate = [0] ∧
      ¬ refused.InStep .speakRate := by
  obtain ⟨past, h, _, hf⟩ := run_refused
  refine ⟨past, h, hf, ?_, by decide +kernel, by decide +kernel, by decide +kernel,
    by decide +kernel, ?_⟩
  · intro p
    cases p <;> decide +kernel
  · rw [InStep, Sides.InStep]
    decide +kernel

end Session

end SpeechBridge

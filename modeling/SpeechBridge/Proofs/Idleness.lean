import SpeechBridge.Proofs.Bookkeeping
import SpeechBridge.Proofs.Uncancelled

/-!
# Speech that runs out

A driver stops being busy at one place only: when it goes on from an utterance that has ended, and
nothing of what is queued is accepted. Main statement: the call that reports this is made once each
time, right then, and no other time.
-/
namespace SpeechBridge

def Task.isIdle : Task → Bool
  | output .idle => true
  | _ => false

theorem Task.admits_other : Task.Admits (·.isIdle = false) where
  answer _ _ := rfl
  hook _ := rfl
  drain _ _ := rfl
  stop := rfl
  land _ := rfl
  start _ _ _ := rfl
  advance := rfl

theorem Playback.Regular.isSpeech_next {p q : Playback} {cancelled : Bool} {call : OutputCall}
    (h : p.Regular) (hn : p.next cancelled = some (call, q)) : call.isSpeech = true := by
  apply h.isSpeech
  cases cancelled with
  | false =>
    rw [Playback.remaining_of_next hn]
    exact List.mem_cons_self
  | true =>
    rw [Playback.remaining, Playback.round_of_next_cancelled hn]
    exact List.mem_append_left _ List.mem_cons_self

namespace Standing

/-- A driver only stops being busy by going on. -/
theorem Step.wentOn_of_falls {v w : Standing} {e : Occurrence} (h : Step v e w)
    (hv : v.processing = true) (hw : w.processing = false) : e = .wentOn := by
  cases h with
  | submit => cases hw
  | goOn => rfl
  | rest => rfl
  | _ => cases hv.symm.trans hw

/-- Going on, a driver hands over up to a document that is accepted, or is no longer busy. -/
theorem Step.of_wentOn {v w : Standing} (h : Step v .wentOn w) :
    (w.accepted = v.accepted + 1 ∧ w.processing = v.processing) ∨
      (w.accepted = v.accepted ∧ w.processing = false ∧ w.handed = v.handed ++ v.pending) := by
  cases h with
  | goOn => exact .inl ⟨rfl, rfl⟩
  | rest => exact .inr ⟨rfl, rfl, rfl⟩

end Standing

namespace Session

/-- Whether the next step reports that the driver is idle. -/
def callsIdle (s : Session) : Bool := s.agenda.head?.any Task.isIdle

theorem agenda_of_wentOn {s : Session} (h : s.occurrence = .wentOn) :
    ∃ rest, s.agenda = .advance :: rest := by
  unfold occurrence at h
  cases ha : s.agenda with
  | nil =>
    rw [ha] at h
    cases h
  | cons task rest =>
    rw [ha] at h
    cases task with
    | advance => exact ⟨rest, rfl⟩
    | call caller c =>
      cases c with
      | speak items =>
        simp only [occurrenceOf, heard] at h
        split at h <;> cases h
      | _ => cases h
    | land fate => cases fate <;> cases h
    | play p =>
      simp only [occurrenceOf] at h
      split at h <;> cases h
    | _ => cases h

theorem occurrence_of_isGoingOn {s : Session} (h : s.isGoingOn = true) :
    s.occurrence = .wentOn := by
  unfold isGoingOn at h
  unfold occurrence
  cases ha : s.agenda with
  | nil => simp [ha] at h
  | cons task rest =>
    rw [ha] at h
    exact occurrenceOf_advance h

theorem Run.busy_of_wentOn {past : List Session} {s : Session} (h : Run past s)
    (hw : s.occurrence = .wentOn) : s.standing.due = 1 ∧ s.driver.processing = true := by
  obtain ⟨rest, ha⟩ := agenda_of_wentOn hw
  have hdue : s.standing.due = rest.countP Task.isAdvance + 1 := by
    simp [standing, ha, List.countP_cons, Task.isAdvance]
  have hp : s.driver.processing = true := h.balanced.busy (by omega)
  have ht := h.balanced.token
  change _ = if s.driver.processing = true then 1 else 0 at ht
  rw [if_pos hp] at ht
  exact ⟨by omega, hp⟩

theorem Run.ended_before {past : List Session} {s : Session} (h : Run past s)
    (hw : s.occurrence = .wentOn) :
    ∃ earlier w, past = earlier ++ [w] ∧ w.occurrence = .ended := by
  have hdue := (h.busy_of_wentOn hw).1
  cases h with
  | start => cases hw
  | @move earlier w _ hr hm =>
    refine ⟨earlier, w, rfl, ?_⟩
    by_contra he
    have hstep := (refines_move hm).due
    rw [if_neg he, hdue] at hstep
    cases hg : w.isGoingOn with
    | false =>
      rw [hr.due hg] at hstep
      split at hstep <;> omega
    | true =>
      have ho := occurrence_of_isGoingOn hg
      rw [if_pos ho, (hr.busy_of_wentOn ho).1] at hstep
      omega

theorem none_idle_of_brings {s t : Session} (h : Brings (·.isIdle = false) s t)
    (hs : ∀ x ∈ s.agenda, x.isIdle = false) : ∀ x ∈ t.agenda, x.isIdle = false := by
  obtain ⟨tasks, ht, hnew⟩ := h
  intro x hx
  rw [ht] at hx
  rcases List.mem_append.mp hx with hx | hx
  · exact hnew x hx
  · exact hs x hx

theorem idle_advance {s : Session} (hs : ∀ x ∈ s.agenda, x.isIdle = false) :
    ((∀ x ∈ s.advance.agenda, x.isIdle = false) ∧
        s.advance.driver.processing = s.driver.processing) ∨
      (s.advance.agenda = .output .idle :: s.agenda ∧ s.advance.driver.processing = false) := by
  rcases brings_advanceThrough Task.admits_other s s.driver.pending with ⟨hb, hp⟩ | hi
  · exact .inl ⟨none_idle_of_brings hb hs, hp⟩
  · exact .inr hi

theorem none_idle_perform {s : Session} {task : Task} (hs : ∀ x ∈ s.agenda, x.isIdle = false)
    (hr : ∀ p, task = .play p → p.Regular) (ha : task ≠ .advance) :
    ∀ x ∈ (s.perform task).agenda, x.isIdle = false := by
  cases hp : task.isPlay with
  | false => exact none_idle_of_brings (brings_perform Task.admits_other s hp ha) hs
  | true =>
    cases task with
    | play p =>
      rw [perform]
      split
      next c q hn =>
        have hc := (hr p rfl).isSpeech_next hn
        have hidle : (Task.output c).isIdle = false := by
          cases c with
          | idle => cases hc
          | _ => rfl
        exact List.forall_mem_cons.mpr ⟨hidle, List.forall_mem_cons.mpr ⟨rfl, hs⟩⟩
      next => exact List.forall_mem_cons.mpr ⟨rfl, hs⟩
    | _ => cases hp

theorem Run.regular_of_play {past : List Session} {s : Session} (h : Run past s) {task : Task}
    {rest : List Task} (ha : s.agenda = task :: rest) : ∀ p, task = .play p → p.Regular := by
  rintro p rfl
  apply h.orderly.regular
  rw [ha]
  exact List.mem_cons_self

/-- Only the innermost task reports that the driver is idle. -/
theorem Run.idle_innermost {past : List Session} {s : Session} (h : Run past s) :
    ∀ x ∈ s.agenda.tail, x.isIdle = false := by
  induction h with
  | start =>
    intro x hx
    cases hx
  | @move past s t hr hm ih =>
    cases hm with
    | receive c ha => simp [receive, ha]
    | step =>
      unfold step
      cases ha : s.agenda with
      | nil => simp [ha]
      | cons task rest =>
        rw [ha] at ih
        by_cases ht : task = .advance
        · subst ht
          rcases idle_advance (s := { s with agenda := rest }) ih with ⟨hn, _⟩ | ⟨hi, _⟩
          · intro x hx
            exact hn x (List.mem_of_mem_tail hx)
          · dsimp only [perform]
            rwa [hi]
        · intro x hx
          have hn := none_idle_perform (s := { s with agenda := rest }) ih (hr.regular_of_play ha)
          exact hn ht x (List.mem_of_mem_tail hx)

theorem callsIdle_of_none {s : Session} (h : ∀ x ∈ s.agenda, x.isIdle = false) :
    s.callsIdle = false := by
  unfold callsIdle
  cases ha : s.agenda with
  | nil => rfl
  | cons task rest => exact h task (by simp [ha])

theorem Run.callsIdle_of_not_wentOn {past : List Session} {v u : Session} (h : Run past v)
    (hm : Move v u) (hw : v.occurrence ≠ .wentOn) : u.callsIdle = false := by
  apply callsIdle_of_none
  cases hm with
  | receive c ha => simp [receive, ha, Task.isIdle]
  | step =>
    unfold step
    cases ha : v.agenda with
    | nil => simp [ha]
    | cons task rest =>
      have hs := h.idle_innermost
      rw [ha] at hs
      apply none_idle_perform hs (h.regular_of_play ha)
      rintro rfl
      apply hw
      rw [occurrence, ha]
      rfl

/-- The call is up next exactly when the driver, going on, has stopped being busy. -/
theorem Run.callsIdle_move {past : List Session} {v u : Session} (h : Run past v) (hm : Move v u) :
    u.callsIdle = true ↔ v.occurrence = .wentOn ∧ u.driver.processing = false := by
  by_cases hw : v.occurrence = .wentOn
  · obtain ⟨rest, ha⟩ := agenda_of_wentOn hw
    have hs := h.idle_innermost
    rw [ha] at hs
    cases hm with
    | receive c he => cases ha.symm.trans he
    | step =>
      have hstep : v.step = ({ v with agenda := rest } : Session).advance := by
        unfold Session.step
        rw [ha]
        rfl
      rw [hstep]
      rcases idle_advance (s := { v with agenda := rest }) hs with ⟨hn, hp⟩ | ⟨hi, hp⟩
      · have hbusy := (h.busy_of_wentOn hw).2
        simp [callsIdle_of_none hn, hp, hbusy]
      · have hcall : (({ v with agenda := rest } : Session).advance).callsIdle = true := by
          rw [callsIdle, hi]
          rfl
        exact iff_of_true hcall ⟨hw, hp⟩
  · simp [h.callsIdle_of_not_wentOn hm hw, hw]

theorem apart_made : Apart made fun _ => True where
  push _ _ := rfl
  park _ _ := rfl
  result _ _ := rfl
  note _ _ _ := rfl
  engine _ _ := rfl
  driver _ _ _ := rfl

theorem made_call (s : Session) (caller : Caller) (c : DriverCall) :
    (s.call caller c).made = s.made := by
  cases hc : c.sets with
  | false => exact apart_made.call (by simp) (by simp) (by simp) s caller hc
  | true =>
    cases c with
    | setRate _ | setPitch _ | setVolume _ => rfl
    | _ => cases hc

theorem made_perform (s : Session) (task : Task) :
    (s.perform task).made.count .idle = s.made.count .idle + if task.isIdle then 1 else 0 := by
  cases task with
  | call caller c => exact congrArg (List.count .idle) (s.made_call caller c)
  | output c =>
    change (c.kind :: s.made).count .idle = _
    rw [List.count_cons]
    cases c <;> rfl
  | _ =>
    refine congrArg (List.count .idle) (apart_made.perform (by simp) (by simp) s ?_ ?_) <;> simp

theorem made_move {s t : Session} (h : Move s t) :
    t.made.count .idle = s.made.count .idle + if s.callsIdle then 1 else 0 := by
  cases h with
  | receive c ha => simp [receive, callsIdle, ha]
  | step =>
    unfold step callsIdle
    cases ha : s.agenda with
    | nil => rfl
    | cons task rest => exact made_perform _ task

/-- How often a driver stops being busy from one session to the next. -/
def falls : List Session → Nat
  | v :: u :: later =>
    (if v.driver.processing && !u.driver.processing then 1 else 0) + falls (u :: later)
  | _ => 0

theorem falls_concat (past : List Session) (v u : Session) :
    falls (past ++ [v] ++ [u]) =
      falls (past ++ [v]) + if v.driver.processing && !u.driver.processing then 1 else 0 := by
  induction past with
  | nil => simp [falls]
  | cons w past ih =>
    cases past with
    | nil => simp [falls]
    | cons x past =>
      simp only [List.cons_append, falls] at ih ⊢
      rw [ih, Nat.add_assoc]

theorem Run.falls_iff {past : List Session} {v u : Session} (h : Run past v) (hm : Move v u) :
    u.callsIdle = true ↔ v.driver.processing = true ∧ u.driver.processing = false := by
  rw [h.callsIdle_move hm]
  constructor
  · rintro ⟨hw, hu⟩
    exact ⟨(h.busy_of_wentOn hw).2, hu⟩
  · rintro ⟨hv, hu⟩
    exact ⟨(refines_move hm).wentOn_of_falls hv hu, hu⟩

theorem Run.made_idle {past : List Session} {s : Session} (h : Run past s) :
    s.made.count .idle + (if s.callsIdle then 1 else 0) = falls (past ++ [s]) := by
  induction h with
  | start => rfl
  | @move past s t hr hm ih =>
    rw [made_move hm, ih, falls_concat]
    congr 1
    have hf := hr.falls_iff hm
    cases hc : t.callsIdle <;> simp_all

/-- Speech runs out: an utterance has ended, and the driver, going on from it, has handed over all
that was queued without any of it being accepted. -/
structure RunsOut (before : List Session) (v u : Session) : Prop where
  ended : ∃ earlier w, before = earlier ++ [w] ∧ w.occurrence = .ended
  wentOn : v.occurrence = .wentOn
  handed : u.handed = v.handed ++ v.driver.pending
  accepted : u.accepted = v.accepted

theorem Run.runsOut_iff {past : List Session} {v u : Session} (h : Run past v) (hm : Move v u) :
    u.callsIdle = true ↔ RunsOut past v u := by
  rw [h.callsIdle_move hm]
  have hr := refines_move hm
  constructor
  · rintro ⟨hw, hu⟩
    have hbusy := (h.busy_of_wentOn hw).2
    rw [hw] at hr
    rcases hr.of_wentOn with ⟨_, hp⟩ | ⟨ha, _, hh⟩
    · cases (hbusy.symm.trans hp.symm).trans hu
    · exact ⟨h.ended_before hw, hw, hh, ha⟩
  · rintro ⟨_, hw, _, ha⟩
    rw [hw] at hr
    rcases hr.of_wentOn with ⟨hn, _⟩ | ⟨_, hp, _⟩
    · exact absurd (ha.symm.trans hn) (Nat.succ_ne_self _).symm
    · exact ⟨hw, hp⟩

theorem Run.quiet_of_callsIdle {past : List Session} {s : Session} (h : Run past s)
    (hc : s.callsIdle = true) :
    s.driver.processing = false ∧ s.driver.pending = [] ∧ s.outstanding = 0 := by
  have hp : s.driver.processing = false := by
    cases h with
    | start => cases hc
    | move hr hm => exact ((hr.callsIdle_move hm).mp hc).2
  obtain ⟨ht, hq⟩ := h.balanced
  rw [if_neg (by simp [standing, hp])] at ht
  refine ⟨hp, hq hp, ?_⟩
  change s.outstanding + _ + _ = 0 at ht
  omega

/-- The call is made once for each time that the driver stops being busy: as soon as it does, which
is when speech has run out, with nothing queued and nothing outstanding. -/
theorem idle_when_speech_runs_out {past : List Session} {v u : Session}
    (h : Run (past ++ [v]) u) :
    (u.callsIdle = true ↔ v.driver.processing = true ∧ u.driver.processing = false) ∧
    (u.callsIdle = true ↔ RunsOut past v u) ∧
    (u.callsIdle = true →
      u.driver.processing = false ∧ u.driver.pending = [] ∧ u.outstanding = 0) ∧
    u.made.count .idle + (if u.callsIdle then 1 else 0) = falls (past ++ [v] ++ [u]) := by
  obtain ⟨hv, hm⟩ := h.last
  exact ⟨hv.falls_iff hm, hv.runsOut_iff hm, h.quiet_of_callsIdle, h.made_idle⟩

/-- A driver whose client asks for a second utterance, which is refused, from inside the first one,
and for a third one from inside the report that it is idle. -/
def talkative : Session :=
  start ⟨.standard, 2, fun _ => true⟩ true
    [⟨.feed, 1, .speak [.text "b"]⟩, ⟨.idle, 1, .speak [.text "c"]⟩]
    (oneVoice .inline [⟨[0, 0, 1, 2], [], none⟩, ⟨[], [], some (.rejected .canceled)⟩,
      ⟨[0, 0, 3, 4], [], none⟩])

def chatting : Session := talkative.receive (.speak [.text "a"])

def hushing : Session := chatting.run 14

theorem run_hushing : Run ((talkative :: chatting.trail 14) ++ [hushing]) hushing.step :=
  (((Run.start _ _ _ _).move (.receive (.speak [.text "a"]) rfl)).trail 14).move (.step _)

theorem idle_inside_idle :
    ∃ past, Run (past ++ [hushing]) hushing.step ∧ hushing.step.callsIdle = true ∧
      (hushing.driver.processing = true ∧ hushing.step.driver.processing = false) ∧
      RunsOut past hushing hushing.step ∧
      (hushing.step.driver.processing = false ∧ hushing.step.driver.pending = [] ∧
        hushing.step.outstanding = 0) ∧
      hushing.step.made.count .idle = 1 ∧ falls (past ++ [hushing] ++ [hushing.step]) = 2 := by
  have hc : hushing.step.callsIdle = true := by decide +kernel
  have hone : hushing.step.made.count .idle = 1 := by decide +kernel
  obtain ⟨hfalls, hruns, hquiet, hcount⟩ := idle_when_speech_runs_out run_hushing
  rw [hone, hc] at hcount
  exact ⟨_, run_hushing, hc, hfalls.mp hc, hruns.mp hc, hquiet hc, hone, hcount.symm⟩

end Session

end SpeechBridge

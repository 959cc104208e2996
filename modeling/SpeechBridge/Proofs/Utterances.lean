import SpeechBridge.Proofs.Standing

/-!
# One utterance at a time

The flag of a driver is a token. While it is up, the token is with an outstanding utterance, with
the end of one that the driver has not gone on from, or lost with a sink that was dropped. Main
statements: what is outstanding in every run, and when a driver comes to rest.
-/
namespace SpeechBridge

namespace Occurrence

def isEnd : Occurrence → Bool
  | ended | dropped => true
  | _ => false

end Occurrence

namespace Standing

/-- The balance of the token, given how many were lost. -/
structure Balanced (lost : Nat) (v : Standing) : Prop where
  token : v.outstanding + v.due + lost = if v.processing then 1 else 0
  queue : v.processing = false → v.pending = []

theorem Balanced.busy {lost : Nat} {v : Standing} (h : Balanced lost v)
    (hv : v.outstanding + v.due ≠ 0) : v.processing = true := by
  have ht := h.token
  split at ht
  next hp => exact hp
  next => omega

theorem Step.balanced {v w : Standing} {e : Occurrence} {lost : Nat} (h : Step v e w)
    (hv : Balanced lost v) : Balanced (lost + if e = .dropped then 1 else 0) w := by
  obtain ⟨ht, hq⟩ := hv
  cases h with
  | queue v document hp =>
    exact ⟨by simpa using ht, fun hn => by simp [hp] at hn⟩
  | submit v document hp =>
    refine ⟨?_, fun hn => by simp at hn⟩
    simp only [hp, Bool.false_eq_true, if_false] at ht
    simp only [reduceCtorEq, if_false, if_true]
    omega
  | refuse v document hp => exact ⟨by simpa using ht, hq⟩
  | cancel v => exact ⟨by simpa using ht, fun _ => rfl⟩
  | finish v =>
    refine ⟨?_, hq⟩
    simp only [reduceCtorEq, if_false] at ht ⊢
    omega
  | drop =>
    refine ⟨?_, hq⟩
    simp only [if_true] at ht ⊢
    omega
  | goOn v refused document rest hd =>
    refine ⟨?_, fun hn => ?_⟩
    · simp only [reduceCtorEq, if_false] at ht ⊢
      omega
    · have := hq hn
      rw [hd] at this
      simp at this
  | rest v =>
    refine ⟨?_, fun _ => rfl⟩
    simp only [reduceCtorEq, if_false, Bool.false_eq_true] at ht ⊢
    split at ht <;> omega
  | other => exact ⟨by simpa using ht, hq⟩

theorem Step.accepted {v w : Standing} {e : Occurrence} (h : Step v e w) :
    w.accepted + v.outstanding = v.accepted + w.outstanding + if e.isEnd then 1 else 0 := by
  cases h <;> simp only [Occurrence.isEnd, if_true, Bool.false_eq_true, if_false] <;> omega

theorem Step.handed_of_spoken {v w : Standing} {document : String}
    (h : Step v (.spoken document) w) :
    w.handed = if v.processing then v.handed else v.handed ++ [document] := by
  cases h with
  | queue _ _ hp => rw [if_pos hp]
  | submit _ _ hp => simp [hp]
  | refuse _ _ hp => simp [hp]

theorem Step.due {v w : Standing} {e : Occurrence} (h : Step v e w) :
    w.due + (if e = .wentOn then 1 else 0) = v.due + if e = .ended then 1 else 0 := by
  cases h <;> simp

end Standing

namespace Session

def endings (past : List Session) : Nat := past.countP (·.occurrence.isEnd)

/-- No utterance of the run had its sink dropped without a call. -/
def Lossless (past : List Session) : Prop := ∀ s ∈ past, s.occurrence ≠ .dropped

def losses (past : List Session) : Nat := past.countP (·.occurrence = .dropped)

theorem losses_eq_zero {past : List Session} : losses past = 0 ↔ Lossless past := by
  simp [losses, Lossless, List.countP_eq_zero]

theorem Run.balanced {past : List Session} {s : Session} (h : Run past s) :
    s.standing.Balanced (losses past) := by
  induction h with
  | start config reportsIdle hooks engine =>
    rw [standing_start]
    exact ⟨rfl, fun _ => rfl⟩
  | @move past s t _ hm ih =>
    have := (refines_move hm).balanced ih
    rw [losses, List.countP_append, List.countP_singleton]
    simpa [losses] using this

theorem Run.outstanding_le {past : List Session} {s : Session} (h : Run past s) :
    s.outstanding ≤ 1 := by
  have ht := h.balanced.token
  change s.outstanding + _ + _ = _ at ht
  split at ht <;> omega

theorem Run.accepted {past : List Session} {s : Session} (h : Run past s) :
    s.accepted = endings past + s.outstanding := by
  induction h with
  | start config reportsIdle hooks engine =>
    have hs := standing_start config reportsIdle hooks engine
    have ha : (Session.start config reportsIdle hooks engine).accepted = 0 :=
      congrArg Standing.accepted hs
    rw [ha]
    rfl
  | @move past s t _ hm ih =>
    have := (refines_move hm).accepted
    rw [endings, List.countP_append, List.countP_singleton]
    simp only [endings, standing] at this ih ⊢
    omega

/-- Whether an utterance has ended and the driver is about to go on. No client code runs then. -/
def isGoingOn (s : Session) : Bool := s.agenda.head?.any Task.isAdvance

theorem agenda_perform_of_ended {s : Session} {task : Task} (h : s.occurrenceOf task = .ended) :
    (s.perform task).agenda = .advance :: s.agenda := by
  cases task with
  | call caller c =>
    cases c with
    | speak items =>
      simp only [occurrenceOf, heard] at h
      split at h <;> cases h
    | _ => cases h
  | land fate =>
    cases fate with
    | failed e => rfl
    | _ => cases h
  | play rest =>
    simp only [occurrenceOf] at h
    cases hn : rest.next s.driver.cancelled with
    | none => simp only [perform, hn, push, List.singleton_append]
    | some next => simp [hn] at h
  | _ => cases h

theorem occurrenceOf_advance {s : Session} {task : Task} (h : task.isAdvance) :
    s.occurrenceOf task = .wentOn := by
  cases task with
  | advance => rfl
  | _ => cases h

theorem innermost_perform {s : Session} (h : s.agenda.countP Task.isAdvance = 0) (task : Task) :
    (s.perform task).agenda.tail.countP Task.isAdvance = 0 := by
  by_cases he : s.occurrenceOf task = .ended
  · rw [agenda_perform_of_ended he]
    exact h
  · have hd := (s.refines_perform task).due
    have hc : (s.standing.charge task).due =
      s.agenda.countP Task.isAdvance + if task.isAdvance then 1 else 0 := rfl
    rw [if_neg he, hc, h] at hd
    have hw : (s.perform task).standing.due = 0 := by
      cases hz : task.isAdvance with
      | true =>
        rw [occurrenceOf_advance hz] at hd
        simpa [hz] using hd
      | false =>
        simp only [hz, Bool.false_eq_true, if_false] at hd
        omega
    have hle := (List.tail_sublist (s.perform task).agenda).countP_le (p := Task.isAdvance)
    exact Nat.le_zero.mp (Nat.le_trans hle (Nat.le_of_eq hw))

theorem innermost_step {s : Session} (h : s.agenda.tail.countP Task.isAdvance = 0) :
    s.step.agenda.tail.countP Task.isAdvance = 0 := by
  unfold step
  cases ha : s.agenda with
  | nil => simp [ha]
  | cons task rest =>
    rw [ha] at h
    exact innermost_perform (s := { s with agenda := rest }) h task

/-- Only the innermost task goes on from an utterance. -/
theorem Run.innermost {past : List Session} {s : Session} (h : Run past s) :
    s.agenda.tail.countP Task.isAdvance = 0 := by
  induction h with
  | start => rfl
  | move _ hm ih =>
    cases hm with
    | step => exact innermost_step ih
    | receive c ha => simp [receive, ha]

theorem Run.due {past : List Session} {s : Session} (h : Run past s) (hc : s.isGoingOn = false) :
    s.standing.due = 0 := by
  have hi := h.innermost
  cases ha : s.agenda with
  | nil => simp [standing, ha]
  | cons task rest =>
    rw [ha] at hi
    simp only [isGoingOn, ha, List.head?_cons, Option.any_some] at hc
    simp only [standing, ha, List.countP_cons, hc]
    simpa using hi

/-- Whenever client code runs, at most one utterance of a driver is outstanding. -/
theorem one_utterance_at_a_time {past : List Session} {s : Session} (h : Run past s)
    (hc : s.isGoingOn = false) :
    s.accepted = endings past + s.outstanding ∧
    s.outstanding ≤ 1 ∧
    (s.driver.processing = false → s.outstanding = 0 ∧ s.driver.pending = []) ∧
    (s.driver.processing = true → (s.outstanding = 1 ↔ Lossless past)) := by
  obtain ⟨ht, hq⟩ := h.balanced
  rw [h.due hc, Nat.add_zero] at ht
  change s.outstanding + losses past = if s.driver.processing then 1 else 0 at ht
  refine ⟨h.accepted, ?_, ?_, ?_⟩
  · split at ht <;> omega
  · intro hp
    rw [hp] at ht
    exact ⟨by simp at ht; omega, hq hp⟩
  · intro hp
    rw [if_pos hp] at ht
    rw [← losses_eq_zero]
    omega

def oneVoice (mode : CompletionMode) (script : List Outcome) : ScriptedEngine :=
  ⟨mode, script, [], [⟨"David", "Microsoft David", "en-US"⟩], 0⟩

def fresh (engine : ScriptedEngine) : Session := start ⟨.standard, 44, fun _ => true⟩ true [] engine

def feeding : Session :=
  ((fresh (oneVoice .inline [⟨[1, 2], [], none⟩])).receive (.speak [.text "a"])).step.step.step

theorem one_utterance_while_feeding :
    ∃ past, Run past feeding ∧ feeding.isGoingOn = false ∧
      feeding.accepted = endings past + feeding.outstanding ∧
      feeding.outstanding ≤ 1 ∧
      (feeding.driver.processing = false →
        feeding.outstanding = 0 ∧ feeding.driver.pending = []) ∧
      (feeding.driver.processing = true → (feeding.outstanding = 1 ↔ Lossless past)) := by
  have h : Run _ feeding :=
    ((((Run.start _ _ _ _).move (.receive _ rfl)).move (.step _)).move (.step _)).move (.step _)
  exact ⟨_, h, rfl, one_utterance_at_a_time h rfl⟩

theorem handed_speak {s : Session} (ha : s.agenda = []) (items : List SpeechItem)
    {language : String} (hl : (Driver.language.run s.engine).result = .ok language) :
    (s.receive (.speak items)).step.handed =
      if s.driver.processing then s.handed
      else s.handed ++ [s.driver.document language items] := by
  have hs := (s.receive (.speak items)).refines_step
  have ho : (s.receive (.speak items)).occurrence =
      .spoken (s.driver.document language items) := by
    simp only [occurrence, receive, ha, List.nil_append, occurrenceOf, heard, hl]
    rfl
  rw [ho] at hs
  exact hs.handed_of_spoken

/-- With no job left, a driver has come to rest exactly if no utterance was dropped on the way. -/
theorem at_rest_iff_lossless {past : List Session} {s : Session} (h : Run past s)
    (ha : s.agenda = []) (hp : s.parked = []) :
    (s.driver.processing = false ∧ s.driver.pending = [] ↔ Lossless past) ∧
    ∀ items language, (Driver.language.run s.engine).result = .ok language →
      ((s.receive (.speak items)).step.handed =
        s.handed ++ [s.driver.document language items] ↔ Lossless past) := by
  obtain ⟨ht, hq⟩ := h.balanced
  have ho : s.standing.outstanding = 0 := by simp [standing, outstanding, ha, hp]
  have hd : s.standing.due = 0 := by simp [standing, ha]
  rw [ho, hd, Nat.add_zero, Nat.zero_add] at ht
  change losses past = if s.driver.processing then 1 else 0 at ht
  have hf : s.driver.processing = false ↔ Lossless past := by
    rw [← losses_eq_zero, ht]
    cases s.driver.processing <;> simp
  refine ⟨⟨fun hr => hf.mp hr.1, fun hr => ⟨hf.mpr hr, hq (hf.mpr hr)⟩⟩, ?_⟩
  intro items language hl
  rw [handed_speak ha items hl, ← hf]
  cases s.driver.processing <;> simp

def rested : Session :=
  (fresh (oneVoice .manual [])).requestAll [.speak [.text "a"], .completeAll]

theorem rest_after_delivery :
    ∃ past, Run past rested ∧ rested.agenda = [] ∧ rested.parked = [] ∧
      (rested.driver.processing = false ∧ rested.driver.pending = [] ↔ Lossless past) ∧
      ∀ items language, (Driver.language.run rested.engine).result = .ok language →
        ((rested.receive (.speak items)).step.handed =
          rested.handed ++ [rested.driver.document language items] ↔ Lossless past) := by
  obtain ⟨⟨past, h⟩, ha⟩ : (∃ past, Run past rested) ∧ rested.agenda = [] :=
    (Run.start _ _ _ _).requestAll rfl _
  exact ⟨past, h, ha, by decide, at_rest_iff_lossless h ha (by decide)⟩

def abandoned : Session :=
  (fresh (oneVoice .manual [⟨[], [], some .synthesisDropped⟩])).requestAll
    [.speak [.text "a"], .complete 0]

/-- A dropped utterance leaves the driver speaking with nothing in progress. -/
theorem dropped_utterance_blocks_speech :
    ∃ past, Run past abandoned ∧ abandoned.agenda = [] ∧ abandoned.parked = [] ∧
      abandoned.driver.processing = true ∧
      ∀ items, (abandoned.receive (.speak items)).step.handed = abandoned.handed := by
  obtain ⟨⟨past, h⟩, ha⟩ : (∃ past, Run past abandoned) ∧ abandoned.agenda = [] :=
    (Run.start _ _ _ _).requestAll rfl _
  refine ⟨past, h, ha, by decide, by decide, ?_⟩
  intro items
  have hl : (Driver.language.run abandoned.engine).result = .ok "en-US" := rfl
  exact (handed_speak ha items hl).trans (if_pos (by decide))

end Session

end SpeechBridge

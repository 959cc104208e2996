import Mathlib.Data.List.DropRight
import SpeechBridge.Proofs.Ledger
import SpeechBridge.Proofs.Rounds

/-!
# Speech after a cancel

Output is made for the call to speak whose document was handed over last, as nothing is handed
over while an utterance is outstanding. Main statement: what is made after a cancel for the calls
to speak before it is what was begun at that moment, at most a single report.
-/
namespace SpeechBridge

/-- Documents are handed over, at once or from the queue. -/
def Standing.HandsOver (v : Standing) : Occurrence → Prop
  | .spoken _ => v.processing = false
  | .wentOn => v.pending ≠ []
  | _ => False

namespace Ledger

def settled (ledger : List Spoken) (queued : Nat) : List Spoken :=
  ledger.take (ledger.length - queued)

/-- The number of the last entry that no cancel has discarded. -/
def lastKept (entries : List Spoken) : Nat := (entries.rdropWhile Spoken.discarded).length

theorem settled_append_queued (entries : List Spoken) (documents : List String) :
    settled (entries ++ documents.map (⟨·, false⟩)) documents.length = entries := by
  simp [settled]

theorem lastKept_le (entries : List Spoken) : lastKept entries ≤ entries.length :=
  (List.rdropWhile_prefix _ _).length_le

theorem lastKept_append_discarded (entries : List Spoken) (documents : List String) :
    lastKept (entries ++ documents.map (⟨·, true⟩)) = lastKept entries := by
  induction documents using List.reverseRecOn with
  | nil => simp
  | append_singleton documents document ih =>
    rw [List.map_append, ← List.append_assoc, List.map_singleton, lastKept,
      List.rdropWhile_concat_pos _ _ _ rfl]
    exact ih

theorem lt_lastKept_append_kept (entries : List Spoken) {documents : List String}
    (h : documents ≠ []) : entries.length < lastKept (entries ++ documents.map (⟨·, false⟩)) := by
  rcases List.eq_nil_or_concat documents with rfl | ⟨init, last, rfl⟩
  · exact absurd rfl h
  · rw [List.concat_eq_append, List.map_append, ← List.append_assoc, List.map_singleton, lastKept,
      List.rdropWhile_concat_neg _ _ _ Bool.false_ne_true]
    rw [List.length_append, List.length_append]
    exact Nat.lt_succ_of_le (Nat.le_add_right _ _)

/-- The entries that are settled grow, and what is handed over becomes the last one kept. -/
theorem exists_settled_step {ledger entries : List Spoken} {v w : Standing} {e : Occurrence}
    (h : Standing.Step v e w) (hq : v.processing = false → v.pending = [])
    (hl : ledger = entries ++ v.pending.map (⟨·, false⟩)) :
    ∃ after, enter ledger v.pending.length e = after ++ w.pending.map (⟨·, false⟩) ∧
      entries.length ≤ after.length ∧
      (v.HandsOver e → entries.length < lastKept after) ∧
      (¬ v.HandsOver e → lastKept after = lastKept entries) := by
  cases h with
  | queue v document hp =>
    refine ⟨entries, by simp [enter, hl], Nat.le_refl _, ?_, fun _ => rfl⟩
    intro hh
    cases hp.symm.trans hh
  | submit v document hp | refuse v document hp =>
    refine ⟨entries ++ [document].map (⟨·, false⟩), by simp [enter, hl, hq hp], by simp, ?_, ?_⟩
    · intro _
      exact lt_lastKept_append_kept _ (by simp)
    · intro hn
      exact absurd hp hn
  | cancel v =>
    refine ⟨entries ++ v.pending.map (⟨·, true⟩), ?_, by simp, False.elim, ?_⟩
    · rw [enter, hl, discardLast_queued]
      simp
    · intro _
      exact lastKept_append_discarded _ _
  | finish v => exact ⟨entries, hl, Nat.le_refl _, False.elim, fun _ => rfl⟩
  | drop => exact ⟨entries, hl, Nat.le_refl _, False.elim, fun _ => rfl⟩
  | goOn v refused document rest hd =>
    refine ⟨entries ++ (refused ++ [document]).map (⟨·, false⟩), by simp [enter, hl, hd], by simp,
      ?_, ?_⟩
    · intro _
      exact lt_lastKept_append_kept _ (by simp)
    · intro hn
      exact absurd (show v.pending ≠ [] by simp [hd]) hn
  | rest v =>
    refine ⟨entries ++ v.pending.map (⟨·, false⟩), by simp [enter, hl], by simp, ?_, ?_⟩
    · intro hh
      exact lt_lastKept_append_kept _ hh
    · intro hn
      have hp : v.pending = [] := not_not.mp hn
      simp [hp]
  | other => exact ⟨entries, hl, Nat.le_refl _, False.elim, fun _ => rfl⟩

end Ledger

theorem Standing.Step.outstanding_of_handsOver {v w : Standing} {e : Occurrence} {lost : Nat}
    (h : Step v e w) (hb : v.Balanced lost) (hh : v.HandsOver e) : v.outstanding = 0 := by
  have ht := hb.token
  cases h with
  | queue v document hp => cases hp.symm.trans hh
  | submit v document hp | refuse v document hp =>
    simp [hp] at ht
    omega
  | goOn v | rest v =>
    change v.outstanding = 0
    simp only at ht
    split at ht <;> omega
  | _ => exact hh.elim

namespace Session

open Ledger

/-- The call to speak, counted from one, that output is made for: the one whose document was
handed over last. -/
def voice (past : List Session) (s : Session) : Nat :=
  lastKept (settled (ledger past) s.driver.pending.length)

/-- Output that a stretch of a run makes for the first calls to speak. -/
def madeFor (calls : Nat) (before : List Session) : List Session → List OutputCall
  | [] => []
  | s :: later =>
    (if voice before s ≤ calls then s.speaks else []) ++ madeFor calls (before ++ [s]) later

theorem madeFor_concat (calls : Nat) (before later : List Session) (s : Session) :
    madeFor calls before (later ++ [s]) =
      madeFor calls before later ++
        if voice (before ++ later) s ≤ calls then s.speaks else [] := by
  induction later generalizing before with
  | nil => simp [madeFor]
  | cons u later ih => simp [madeFor, ih]

theorem Run.voice_move {past : List Session} {s t : Session} (h : Run past s) (hm : Move s t) :
    let before := settled (ledger past) s.driver.pending.length
    before.length ≤ (settled (ledger (past ++ [s])) t.driver.pending.length).length ∧
      (s.standing.HandsOver s.occurrence → before.length < voice (past ++ [s]) t) ∧
      (¬ s.standing.HandsOver s.occurrence → voice (past ++ [s]) t = voice past s) := by
  obtain ⟨entries, hl, _⟩ := h.agrees
  obtain ⟨after, ha, hle, hkept, hstay⟩ :=
    exists_settled_step (refines_move hm) h.balanced.queue hl
  have hs : settled (ledger past) s.driver.pending.length = entries := by
    rw [hl]
    exact settled_append_queued _ _
  have ht : settled (ledger (past ++ [s])) t.driver.pending.length = after := by
    rw [ledger_concat]
    exact (congrArg (settled · _) ha).trans (settled_append_queued _ _)
  simp only [voice, hs, ht]
  exact ⟨hle, hkept, hstay⟩

theorem driver_place (s : Session) (p : Progress Outcome Outcome Unit) :
    (s.place p).driver = s.driver := by
  cases p <;> rfl

theorem driver_resume (s : Session) (job : DriverJob) : (s.resume job).driver = s.driver :=
  driver_place _ _

/-- A cancel puts the flag up, handing documents over puts it down, and else it stays. -/
def Flagged (s : Session) (e : Occurrence) (t : Session) : Prop :=
  (e = .cancelled ∧ t.driver.cancelled = true) ∨
    (s.standing.HandsOver e ∧ t.driver.cancelled = false) ∨
    (¬ s.standing.HandsOver e ∧ t.driver.cancelled = s.driver.cancelled)

theorem flagged_speak (s : Session) (caller : Caller) (items : List SpeechItem) :
    s.Flagged (s.heard items) (s.speak caller items) := by
  cases hl : (Driver.language.run s.engine).result with
  | error e =>
    rw [speak, engineCall_of_result hl, heard, hl]
    exact .inr (.inr ⟨id, rfl⟩)
  | ok language =>
    rw [speak, engineCall_of_result hl, heard, hl]
    dsimp only
    rw [driver_engineCall]
    cases hp : s.driver.processing with
    | true =>
      rw [if_pos rfl]
      refine .inr (.inr ⟨?_, rfl⟩)
      intro hn
      cases hp.symm.trans hn
    | false =>
      rw [if_neg Bool.false_ne_true]
      refine .inr (.inl ⟨hp, ?_⟩)
      split
      next t progress ht =>
        obtain ⟨rfl, _⟩ := Prod.mk.inj ht
        exact congrArg Driver.cancelled (driver_place _ _)
      next t e ht =>
        obtain ⟨rfl, _⟩ := Prod.mk.inj ht
        rfl

theorem clear_advanceThrough {s : Session} {documents : List String}
    (h : documents = [] → s.driver.cancelled = false) :
    (s.advanceThrough documents).driver.cancelled = false := by
  induction documents generalizing s with
  | nil => exact h rfl
  | cons document documents ih =>
    rw [advanceThrough]
    split
    next t progress ht =>
      obtain ⟨rfl, _⟩ := Prod.mk.inj ht
      rw [driver_place]
      rfl
    next t e ht =>
      obtain ⟨rfl, _⟩ := Prod.mk.inj ht
      apply ih
      intro _
      rfl

theorem flagged_perform (s : Session) (task : Task) :
    s.Flagged (s.occurrenceOf task) (s.perform task) := by
  have same (hh : ¬ s.standing.HandsOver (s.occurrenceOf task))
      (hd : (s.perform task).driver = s.driver) :
      s.Flagged (s.occurrenceOf task) (s.perform task) :=
    .inr (.inr ⟨hh, congrArg Driver.cancelled hd⟩)
  cases task with
  | call caller c =>
    cases c with
    | speak items => exact s.flagged_speak caller items
    | cancel => exact .inl ⟨rfl, rfl⟩
    | complete index =>
      apply same id
      rw [perform, call]
      split
      · rfl
      · exact driver_resume _ _
    | _ => exact .inr (.inr ⟨id, rfl⟩)
  | answer caller a => cases caller <;> exact same id rfl
  | drain caller count =>
    apply same id
    rw [perform]
    split
    · rfl
    · exact driver_resume _ _
  | output c => exact same id rfl
  | land fate => cases fate <;> exact same id rfl
  | play rest =>
    apply same
    · rw [occurrenceOf]
      split <;> exact id
    · rw [perform]
      split <;> rfl
  | advance =>
    cases hp : s.driver.pending with
    | nil =>
      refine .inr (.inr ⟨not_not_intro hp, ?_⟩)
      rw [perform, advance, hp]
      rfl
    | cons document rest =>
      have hne : s.driver.pending ≠ [] := by simp [hp]
      exact .inr (.inl ⟨hne, clear_advanceThrough fun he => absurd he hne⟩)

theorem flagged_move {s t : Session} (hm : Move s t) : s.Flagged s.occurrence t := by
  cases hm with
  | step =>
    unfold step occurrence
    cases ha : s.agenda with
    | nil => exact .inr (.inr ⟨id, rfl⟩)
    | cons task rest => exact flagged_perform { s with agenda := rest } task
  | receive c ha =>
    rw [occurrence, ha]
    exact .inr (.inr ⟨id, rfl⟩)

theorem cancelled_move {s t : Session} (hm : Move s t) (h : s.driver.cancelled = true) :
    t.driver.cancelled = true ∨ s.standing.HandsOver s.occurrence := by
  rcases flagged_move hm with ⟨_, hup⟩ | ⟨hh, _⟩ | ⟨_, hsame⟩
  · exact .inl hup
  · exact .inr hh
  · exact .inl (hsame.trans h)

theorem speaks_of_handsOver {s : Session} {v : Standing} {task : Task}
    (h : v.HandsOver (s.occurrenceOf task)) : task.speaks = [] := by
  cases task with
  | output c => exact h.elim
  | _ => rfl

theorem flatMap_begun_of_no_sink {tasks : List Task} (hs : ∀ x ∈ tasks, x.speaks = [])
    (hn : tasks.countP Task.holdsSink = 0) : tasks.flatMap Task.begun = [] := by
  apply List.flatMap_eq_nil_iff.mpr
  intro x hx
  have hp : x.isPlay = false := by
    have := List.countP_eq_zero.mp hn x hx
    cases x <;> simp_all [Task.holdsSink, Task.isPlay]
  rw [Task.begun_of_not_play hp]
  exact hs x hx

theorem Run.begun_of_handsOver {past : List Session} {s t : Session} (h : Run past s)
    (hm : Move s t) (hh : s.standing.HandsOver s.occurrence) : s.speaks = [] ∧ s.begun = [] := by
  have ho : s.outstanding = 0 := (refines_move hm).outstanding_of_handsOver h.balanced hh
  have hn : s.agenda.countP Task.holdsSink = 0 := by
    rw [outstanding] at ho
    omega
  have ht := h.orderly.tail
  rw [occurrence] at hh
  rw [speaks, begun]
  cases ha : s.agenda with
  | nil => exact ⟨rfl, rfl⟩
  | cons task rest =>
    rw [ha] at hh hn ht
    have hs := speaks_of_handsOver hh
    exact ⟨hs, flatMap_begun_of_no_sink (List.forall_mem_cons.mpr ⟨hs, ht⟩) hn⟩

theorem exists_cancel_of_cancelled {s : Session} (hc : s.occurrence = .cancelled) :
    ∃ caller rest, s.agenda = .call caller .cancel :: rest := by
  rw [occurrence] at hc
  cases ha : s.agenda with
  | nil => simp [ha] at hc
  | cons task rest =>
    rw [ha] at hc
    cases task with
    | call caller c =>
      cases c with
      | cancel => exact ⟨caller, rest, rfl⟩
      | speak items =>
        simp only [occurrenceOf, heard] at hc
        split at hc <;> cases hc
      | _ => cases hc
    | land fate => cases fate <;> cases hc
    | play p =>
      simp only [occurrenceOf] at hc
      split at hc <;> cases hc
    | _ => cases hc

theorem move_cancel {s t : Session} (hm : Move s t) (hc : s.occurrence = .cancelled) :
    t.driver.cancelled = true ∧ t.driver.pending = [] ∧ t.begun = s.begun := by
  obtain ⟨caller, rest, ha⟩ := exists_cancel_of_cancelled hc
  cases hm with
  | step =>
    have hb := speaks_append_begun (s := s) (.inr (by simp [ha, Task.isPlay]))
    rw [speaks, ha] at hb
    have ht : s.step = ({ s with agenda := rest } : Session).cancel caller := by rw [step, ha]; rfl
    rw [ht]
    exact ⟨rfl, rfl, ht ▸ hb⟩
  | receive c he => simp [he] at ha

theorem length_ledger_cancel (past : List Session) {s : Session} (hc : s.occurrence = .cancelled) :
    (ledger (past ++ [s])).length = (ledger past).length := by
  have := congrArg List.length (document_discardLast s.driver.pending.length (ledger past))
  rw [ledger_concat, hc]
  simpa [enter] using this

theorem speaks_append_begun_move {s t : Session} (hm : Move s t) (h : s.driver.cancelled = true) :
    s.speaks ++ t.begun = s.begun := by
  cases hm with
  | step => exact speaks_append_begun (.inl h)
  | receive c ha => simp [speaks, begun, receive, ha, Task.begun]

/-- Until documents are handed over the flag is up, and what was begun is made or still to be
made; from then on output is made for later calls to speak. -/
theorem Run.silenced {before between : List Session} {s t : Session}
    (h : Run (before ++ s :: between) t) (hc : s.occurrence = .cancelled) :
    let past := before ++ s :: between
    let calls := (ledger before).length
    let made := madeFor calls (before ++ [s]) between
    calls ≤ (settled (ledger past) t.driver.pending.length).length ∧
      (voice past t ≤ calls ∧ t.driver.cancelled = true ∧ made ++ t.begun = s.begun ∨
        calls < voice past t ∧ made = s.begun) := by
  induction between using List.reverseRecOn generalizing t with
  | nil =>
    obtain ⟨_, hm⟩ := h.last
    obtain ⟨hf, hp, hb⟩ := move_cancel hm hc
    have hs : settled (ledger (before ++ [s])) t.driver.pending.length = ledger (before ++ [s]) := by
      simp [settled, hp]
    refine ⟨?_, .inl ⟨?_, hf, hb⟩⟩
    · rw [hs, length_ledger_cancel before hc]
    · rw [voice, hs, ← length_ledger_cancel before hc]
      exact lastKept_le _
  | append_singleton between u ih =>
    rw [show before ++ s :: (between ++ [u]) = (before ++ s :: between) ++ [u] by simp] at h ⊢
    obtain ⟨hr, hm⟩ := h.last
    obtain ⟨hle, hu⟩ := ih hr
    obtain ⟨hgrow, hkept, hstay⟩ := hr.voice_move hm
    have hw : before ++ [s] ++ between = before ++ s :: between := by simp
    simp only [madeFor_concat, hw]
    refine ⟨Nat.le_trans hle hgrow, ?_⟩
    by_cases hh : u.standing.HandsOver u.occurrence
    · refine .inr ⟨Nat.lt_of_le_of_lt hle (hkept hh), ?_⟩
      obtain ⟨hs, hb⟩ := hr.begun_of_handsOver hm hh
      rw [hs, ite_self, List.append_nil]
      rcases hu with ⟨_, _, hmade⟩ | ⟨_, hmade⟩
      · rwa [hb, List.append_nil] at hmade
      · exact hmade
    · rw [hstay hh]
      rcases hu with ⟨hv, hf, hmade⟩ | ⟨hv, hmade⟩
      · refine .inl ⟨hv, (cancelled_move hm hf).resolve_right hh, ?_⟩
        rw [if_pos hv, List.append_assoc, speaks_append_begun_move hm hf, hmade]
      · refine .inr ⟨hv, ?_⟩
        rw [if_neg (by omega), List.append_nil, hmade]

theorem flatMap_begun_of_one_sink {tasks : List Task} (hs : ∀ x ∈ tasks, x.speaks = [])
    (hr : ∀ rest, .play rest ∈ tasks → rest.Regular) (hn : tasks.countP Task.holdsSink ≤ 1) :
    tasks.flatMap Task.begun = [] ∨ ∃ n, tasks.flatMap Task.begun = [.index n] := by
  induction tasks with
  | nil => exact .inl rfl
  | cons task tasks ih =>
    obtain ⟨hst, hss⟩ := List.forall_mem_cons.mp hs
    rw [List.countP_cons] at hn
    rw [List.flatMap_cons]
    cases hp : task.isPlay with
    | false =>
      rw [Task.begun_of_not_play hp, hst, List.nil_append]
      apply ih hss
      · intro p hm
        exact hr p (List.mem_cons_of_mem _ hm)
      · omega
    | true =>
      cases task with
      | play p =>
        simp only [Task.holdsSink, if_true] at hn
        rw [flatMap_begun_of_no_sink hss (by omega), List.append_nil, Task.begun]
        rcases (hr p List.mem_cons_self).round with hround | ⟨n, hround⟩
        · left
          rw [hround]
          rfl
        · right
          exact ⟨n, by rw [hround]; rfl⟩
      | _ => cases hp

theorem Run.begun_of_cancelled {past : List Session} {s : Session} (h : Run past s)
    (hc : s.occurrence = .cancelled) :
    (s.begun = [] ∨ ∃ n, s.begun = [.index n]) ∧ (s.agenda.tail = [] → s.begun = []) := by
  obtain ⟨caller, rest, ha⟩ := exists_cancel_of_cancelled hc
  have hb : s.begun = rest.flatMap Task.begun := by
    rw [begun, ha, List.flatMap_cons]
    rfl
  obtain ⟨htail, hregular⟩ := h.orderly
  have hn : rest.countP Task.holdsSink ≤ 1 := by
    have ht := h.balanced.token
    have ho : s.standing.outstanding = s.parked.length + rest.countP Task.holdsSink := by
      simp [standing, outstanding, ha, Task.holdsSink]
    split at ht <;> omega
  rw [ha] at htail hregular
  rw [hb, ha]
  constructor
  · apply flatMap_begun_of_one_sink htail _ hn
    intro p hp
    exact hregular p (List.mem_cons_of_mem _ hp)
  · intro he
    rw [List.tail_cons] at he
    rw [he]
    rfl

/-- After a cancel, output for the calls to speak before it is what was begun at that moment: at
most one report, and none if the cancel was not made from inside an output call. -/
theorem only_begun_report_after_cancel {before between : List Session} {s t : Session}
    (h : Run (before ++ s :: between) t) (hc : s.occurrence = .cancelled) :
    madeFor (ledger before).length (before ++ [s]) between <+: s.begun ∧
      (t.agenda = [] → madeFor (ledger before).length (before ++ [s]) between = s.begun) ∧
      (s.begun = [] ∨ ∃ n, s.begun = [.index n]) ∧ (s.agenda.tail = [] → s.begun = []) := by
  obtain ⟨_, hmade⟩ := h.silenced hc
  refine ⟨?_, ?_, h.before.begun_of_cancelled hc⟩
  · rcases hmade with ⟨_, _, hmade⟩ | ⟨_, hmade⟩
    · exact ⟨_, hmade⟩
    · exact hmade ▸ List.prefix_rfl
  · intro ha
    rcases hmade with ⟨_, _, hmade⟩ | ⟨_, hmade⟩
    · rwa [begun, ha, List.flatMap_nil, List.append_nil] at hmade
    · exact hmade

/-- A driver whose client cancels from inside the second chunk, with the call that it gets. -/
def impatient : Session :=
  start ⟨.standard, 44, fun _ => true⟩ true [⟨.feed, 2, .cancel⟩]
    (oneVoice .inline [⟨[1, 2, 3, 4, 5, 6], [.ofTicks "1" 454, .ofTicks "2" 908], none⟩])

def asked : Session := impatient.receive (.speak [.text "a"])

def interrupted : Session := asked.run 6

theorem run_interrupted :
    Run ((impatient :: asked.trail 6) ++ interrupted :: interrupted.step.trail 8)
      (interrupted.run 9) :=
  (((Run.start _ _ _ _).move (.receive (.speak [.text "a"]) rfl)).trail 6).trail 9

theorem interrupted_report_was_begun :
    ∃ before between, Run (before ++ interrupted :: between) (interrupted.run 9) ∧
      interrupted.occurrence = .cancelled ∧
      madeFor (ledger before).length (before ++ [interrupted]) between <+: interrupted.begun ∧
      ((interrupted.run 9).agenda = [] →
        madeFor (ledger before).length (before ++ [interrupted]) between = interrupted.begun) ∧
      (interrupted.begun = [] ∨ ∃ n, interrupted.begun = [.index n]) ∧
      (interrupted.agenda.tail = [] → interrupted.begun = []) :=
  ⟨_, _, run_interrupted, rfl, only_begun_report_after_cancel run_interrupted rfl⟩

/-- A bookmark is reported after the cancel that discarded the audio before it. -/
theorem report_after_cancel :
    ∃ before s between t, Run (before ++ s :: between) t ∧ s.occurrence = .cancelled ∧
      madeFor (ledger before).length (before ++ [s]) between = [.index 1] :=
  ⟨_, _, _, _, run_interrupted, rfl, by decide⟩

end Session

end SpeechBridge

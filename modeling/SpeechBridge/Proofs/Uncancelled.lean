import SpeechBridge.Proofs.Chunks
import SpeechBridge.Proofs.Silence

/-!
# Speech that no cancel follows

There is one flag for all utterances. It goes down whenever documents are handed over, and only
a cancel puts it up. Main statement: an utterance with no cancel between its call to speak and the
end of its playback is played in full, whatever was cancelled, refused or dropped before.
-/
namespace SpeechBridge

namespace Session

open Ledger

/-- Handing documents over puts the flag down, and nothing but a cancel puts it up. -/
theorem clear_move {s t : Session} (hm : Move s t)
    (h : ¬ s.standing.HandsOver s.occurrence → s.driver.cancelled = false)
    (hc : s.occurrence ≠ .cancelled) : t.driver.cancelled = false := by
  rcases flagged_move hm with ⟨he, _⟩ | ⟨_, hdown⟩ | ⟨hh, hsame⟩
  · exact absurd he hc
  · exact hdown
  · exact hsame.trans (h hh)

theorem clear_trail {n : Nat} {s : Session} (h : s.driver.cancelled = false)
    (hc : ∀ u ∈ s.trail n, u.occurrence ≠ .cancelled) :
    ∀ u ∈ s.trail n ++ [s.run n], u.driver.cancelled = false := by
  induction n generalizing s with
  | zero => simpa [trail, run] using h
  | succ n ih =>
    rw [trail] at hc
    rw [trail, run]
    split at hc
    next he => simpa [he] using h
    next he =>
      obtain ⟨hs, hr⟩ := List.forall_mem_cons.mp hc
      rw [if_neg he, if_neg he, List.cons_append, List.forall_mem_cons]
      exact ⟨h, ih (clear_move (.step s) (fun _ => h) hs) hr⟩

/-- The outstanding utterance stems from a call to speak after which so much has happened. -/
structure Origin (before : List Session) (call : Session) (document : String)
    (between : List Session) (s : Session) : Prop where
  spoken : call.occurrence = .spoken document
  voice : voice (before ++ call :: between) s = (ledger before).length + 1

theorem voice_le (past : List Session) (s : Session) : voice past s ≤ (ledger past).length :=
  Nat.le_trans (lastKept_le _) ((List.take_sublist _ _).length_le)

/-- Without a cancel since a call to speak, the flag is down once output is made for it. -/
theorem Run.clear_or_voice_le {before between : List Session} {call s : Session}
    {document : String} (h : Run (before ++ call :: between) s)
    (hs : call.occurrence = .spoken document) (hc : ∀ u ∈ between, u.occurrence ≠ .cancelled) :
    s.driver.cancelled = false ∨
      Session.voice (before ++ call :: between) s ≤ (ledger before).length := by
  induction between using List.reverseRecOn generalizing s with
  | nil =>
    obtain ⟨hr, hm⟩ := h.last
    by_cases hh : call.standing.HandsOver call.occurrence
    · left
      exact clear_move hm (fun hn => absurd hh hn) (by simp [hs])
    · right
      rw [(hr.voice_move hm).2.2 hh]
      exact voice_le before call
  | append_singleton between u ih =>
    rw [show before ++ call :: (between ++ [u]) = (before ++ call :: between) ++ [u] by simp] at h ⊢
    obtain ⟨hr, hm⟩ := h.last
    have hu : u.occurrence ≠ .cancelled := hc u (by simp)
    have hi := ih hr fun v hv => hc v (List.mem_append_left _ hv)
    by_cases hh : u.standing.HandsOver u.occurrence
    · left
      exact clear_move hm (fun hn => absurd hh hn) hu
    · rcases hi with hf | hv
      · left
        exact clear_move hm (fun _ => hf) hu
      · right
        rwa [(hr.voice_move hm).2.2 hh]

theorem Run.clear_of_origin {before between : List Session} {call s : Session} {document : String}
    (h : Run (before ++ call :: between) s) (ho : Origin before call document between s)
    (hc : ∀ u ∈ between, u.occurrence ≠ .cancelled) : s.driver.cancelled = false := by
  rcases h.clear_or_voice_le ho.spoken hc with hf | hv
  · exact hf
  · rw [ho.voice] at hv
    exact absurd hv (Nat.not_succ_le_self _)

end Session

namespace Ledger

theorem exists_lastKept {entries : List Spoken} (h : kept entries ≠ []) :
    ∃ older document newer, entries = older ++ ⟨document, false⟩ :: newer ∧
      lastKept entries = older.length + 1 ∧ (kept entries).getLast? = some document := by
  induction entries using List.reverseRecOn with
  | nil => exact absurd rfl h
  | append_singleton entries e ih =>
    rcases e with ⟨document, _ | _⟩
    · refine ⟨entries, document, [], rfl, ?_, ?_⟩
      · rw [lastKept, List.rdropWhile_concat_neg _ _ _ Bool.false_ne_true]
        exact List.length_append
      · rw [kept_append]
        exact List.getLast?_concat
    · have hk : kept (entries ++ [⟨document, true⟩]) = kept entries := by
        rw [kept_append]
        exact List.append_nil _
      rw [hk] at h ⊢
      obtain ⟨older, last, newer, he, hl, hd⟩ := ih h
      refine ⟨older, last, newer ++ [⟨document, true⟩], ?_, ?_, hd⟩
      · rw [he, List.append_assoc]
        rfl
      · rw [← hl]
        exact lastKept_append_discarded entries [document]

end Ledger

namespace Session

open Ledger

theorem exists_call_of_ledger {past : List Session} {older newer : List Spoken} {e : Spoken}
    (h : ledger past = older ++ e :: newer) :
    ∃ before call between, past = before ++ call :: between ∧
      call.occurrence = .spoken e.document ∧ (ledger before).length = older.length := by
  have hd := document_ledger past
  rw [h, List.map_append, List.map_cons] at hd
  obtain ⟨first, later, rfl, hf, hl⟩ := List.filterMap_eq_append_iff.mp hd.symm
  obtain ⟨silent, call, between, rfl, hn, hs, _⟩ := List.filterMap_eq_cons_iff.mp hl
  refine ⟨first ++ silent, call, between, (List.append_assoc _ _ _).symm, ?_, ?_⟩
  · cases ho : call.occurrence with
    | spoken document =>
      rw [ho] at hs
      rw [Option.some.inj hs]
    | _ => simp [ho, Occurrence.document?] at hs
  · have hb := congrArg List.length (document_ledger (first ++ silent))
    rw [List.filterMap_append, hf, List.filterMap_eq_nil_iff.mpr hn] at hb
    simpa using hb

theorem handed_ne_nil {s : Session} (h : s.accepted ≠ 0) : s.handed ≠ [] := by
  obtain ⟨e, he, ha⟩ := List.countP_pos_iff.mp (Nat.pos_of_ne_zero h)
  intro hn
  have hd := List.filterMap_eq_nil_iff.mp hn e he
  rcases e with (_ | _ | _ | _) | _ | _ | _ <;>
    simp [Entry.isAcceptance, Entry.document?, EngineEvent.document?] at ha hd

/-- An outstanding utterance stems from a call to speak, whose document was handed over last. -/
theorem Run.exists_origin {past : List Session} {s : Session} (h : Run past s)
    (ho : s.outstanding ≠ 0) :
    ∃ before call document between, past = before ++ call :: between ∧
      Origin before call document between s ∧ s.handed.getLast? = some document := by
  have ha : s.accepted ≠ 0 := by
    rw [h.accepted]
    omega
  obtain ⟨entries, hl, hh⟩ := h.agrees
  change s.handed = kept entries at hh
  have hv : voice past s = lastKept entries := by
    rw [voice, hl]
    exact congrArg lastKept (settled_append_queued _ _)
  obtain ⟨older, document, newer, he, hk, hd⟩ := exists_lastKept (hh ▸ handed_ne_nil ha)
  rw [he, List.append_assoc] at hl
  obtain ⟨before, call, between, rfl, hs, hb⟩ := exists_call_of_ledger hl
  refine ⟨before, call, document, between, rfl, ⟨hs, ?_⟩, hh ▸ hd⟩
  rw [hv, hk, hb]

end Session

namespace Playback

def remaining (p : Playback) : List OutputCall := p.round ++ p.later.flatten

theorem performed_eq_remaining (made : Nat) (p : Playback) :
    performed (fun _ => false) made p = p.remaining := by
  rw [performed_eq, callsFrom_of_clear, remaining]

theorem remaining_of_next {p q : Playback} {call : OutputCall} (h : p.next false = some (call, q)) :
    p.remaining = call :: q.remaining := by
  rw [← performed_eq_remaining 0 p, ← performed_eq_remaining 1 q, performed]
  split
  next hn => cases h.symm.trans hn
  next hn =>
    cases h.symm.trans hn
    rfl

theorem remaining_of_next_none {p : Playback} (h : p.next false = none) : p.remaining = [] := by
  rw [← performed_eq_remaining 0 p, performed]
  split
  next => rfl
  next hn => cases h.symm.trans hn

theorem Regular.isSpeech {p : Playback} (h : p.Regular) : ∀ c ∈ p.remaining, c.isSpeech = true := by
  intro c hc
  rcases List.mem_append.mp hc with hc | hc
  · rcases h.round with hr | ⟨n, hr⟩
    · rw [hr] at hc
      cases hc
    · rw [hr] at hc
      rw [List.mem_singleton.mp hc]
      rfl
  · obtain ⟨r, hr, hc⟩ := List.mem_flatten.mp hc
    rcases h.later r hr with rfl | ⟨chunk, waiting, rfl⟩
    · cases hc
    · rcases List.mem_cons.mp hc with rfl | hc
      · rfl
      · obtain ⟨n, _, rfl⟩ := Option.map_eq_some_iff.mp (Option.mem_toList.mp hc)
        rfl

end Playback

namespace Session

/-- A playback is on the agenda behind tasks without a sink, and what is still to be said of it. -/
def Utters (s : Session) (left : List OutputCall) : Prop :=
  ∃ tasks p rest, s.agenda = tasks ++ .play p :: rest ∧ tasks.countP Task.holdsSink = 0 ∧
    tasks.flatMap Task.speaks ++ p.remaining = left

/-- The utterance in delivery ends after so many steps. -/
structure Ends (s : Session) (n : Nat) : Prop where
  ended : (s.run n).occurrence = .ended
  first : ∀ u ∈ s.trail n, u.occurrence ≠ .ended

theorem ends_succ {s : Session} {n : Nat} (ha : s.agenda ≠ []) :
    s.Ends (n + 1) ↔ s.occurrence ≠ .ended ∧ s.step.Ends n := by
  have he : ¬ s.agenda.isEmpty = true := by simpa using ha
  constructor
  · rintro ⟨hr, ht⟩
    rw [run, if_neg he] at hr
    rw [trail, if_neg he] at ht
    obtain ⟨hs, ht⟩ := List.forall_mem_cons.mp ht
    exact ⟨hs, hr, ht⟩
  · rintro ⟨hs, hr, ht⟩
    constructor
    · rwa [run, if_neg he]
    · rw [trail, if_neg he]
      exact List.forall_mem_cons.mpr ⟨hs, ht⟩

theorem holdsSink_of_ended {s : Session} {task : Task} (h : s.occurrenceOf task = .ended) :
    task.holdsSink = true := by
  cases task with
  | call caller c =>
    cases c with
    | speak items =>
      rw [occurrenceOf, heard] at h
      split at h <;> cases h
    | _ => cases h
  | land fate => rfl
  | play p => rfl
  | _ => cases h

theorem Utters.agenda {s : Session} {left : List OutputCall} (h : s.Utters left) :
    s.agenda ≠ [] := by
  obtain ⟨tasks, p, rest, ha, _⟩ := h
  rw [ha]
  exact List.append_ne_nil_of_right_ne_nil _ (List.cons_ne_nil _ _)

theorem Utters.eq_nil {s : Session} {left : List OutputCall} (h : s.Utters left)
    (he : s.occurrence = .ended) (hc : s.driver.cancelled = false) : left = [] := by
  obtain ⟨tasks, p, rest, ha, hn, rfl⟩ := h
  rw [occurrence, ha] at he
  cases tasks with
  | nil =>
    simp only [List.nil_append, occurrenceOf, hc] at he
    cases hp : p.next false with
    | none => exact Playback.remaining_of_next_none hp
    | some next => simp [hp] at he
  | cons task tasks =>
    have hs := List.countP_eq_zero.mp hn task List.mem_cons_self
    exact absurd (holdsSink_of_ended he) hs

theorem agenda_play {s : Session} {p q : Playback} {c : OutputCall} {rest : List Task}
    (ha : s.agenda = .play p :: rest) (hp : p.next s.driver.cancelled = some (c, q)) :
    s.step.agenda = .output c :: .play q :: rest := by
  rw [step, ha]
  dsimp only
  rw [perform]
  simp only [hp]
  rfl

/-- Until its end a playback stays on the agenda; with the flag down, what a step says is taken
from what was still to be said. -/
theorem Run.utters_step {past : List Session} {s : Session} {left : List OutputCall}
    (h : Run past s) (hu : s.Utters left) (he : s.occurrence ≠ .ended) :
    ∃ later, s.step.Utters later ∧ (s.driver.cancelled = false → s.speaks ++ later = left) := by
  obtain ⟨tasks, p, rest, ha, hn, rfl⟩ := hu
  cases tasks with
  | nil =>
    cases hp : p.next s.driver.cancelled with
    | none =>
      rw [occurrence, ha] at he
      exact absurd (by simp [occurrenceOf, hp]) he
    | some next =>
      obtain ⟨c, q⟩ := next
      refine ⟨_, ⟨[.output c], q, rest, agenda_play ha hp, rfl, rfl⟩, ?_⟩
      intro hc
      rw [hc] at hp
      have hr := Playback.remaining_of_next hp
      have hs : c.isSpeech = true := by
        apply (h.orderly.regular p (by simp [ha])).isSpeech
        rw [hr]
        exact List.mem_cons_self
      rw [speaks, ha, hr]
      simp [Task.speaks, hs]
  | cons task tasks =>
    rw [List.countP_cons] at hn
    have hplay : task.isPlay = false := by
      cases task with
      | play p => simp [Task.holdsSink] at hn
      | _ => rfl
    have hstep : s.step =
        ({ s with agenda := tasks ++ .play p :: rest } : Session).perform task := by
      rw [step, ha]
      rfl
    obtain ⟨new, hnew, hcalm⟩ :=
      grows_perform { s with agenda := tasks ++ .play p :: rest } hplay
    rw [← hstep] at hnew
    -- The playback holds the only sink, so what comes up holds none.
    have hle := (h.move (.step s)).outstanding_le
    have hsinks : (new ++ tasks).countP Task.holdsSink = 0 := by
      rw [outstanding, hnew] at hle
      simp only [List.countP_append, List.countP_cons, Task.holdsSink, if_true] at hle ⊢
      omega
    have hsilent : new.flatMap Task.speaks = [] :=
      List.flatMap_eq_nil_iff.mpr fun x hx => Task.speaks_of_begun (hcalm x hx).begun
    refine ⟨_, ⟨new ++ tasks, p, rest, ?_, hsinks, rfl⟩, ?_⟩
    · rw [hnew, List.append_assoc]
    · intro _
      rw [speaks, ha, List.flatMap_append, hsilent]
      simp

theorem Run.exists_end {past : List Session} {s : Session} {left : List OutputCall}
    (h : Run past s) (hu : s.Utters left) : ∃ n, s.Ends n := by
  induction hw : s.weight using Nat.strong_induction_on generalizing past s left with
  | _ weight ih =>
    by_cases he : s.occurrence = .ended
    · refine ⟨0, he, ?_⟩
      intro u hm
      cases hm
    · obtain ⟨later, hl, _⟩ := h.utters_step hu he
      have hlt : s.step.weight < weight := hw ▸ weight_step hu.agenda
      obtain ⟨n, hn⟩ := ih _ hlt (h.move (.step s)) hl rfl
      exact ⟨n + 1, (ends_succ hu.agenda).mpr ⟨he, hn⟩⟩

theorem Run.said_until_end {past : List Session} {s : Session} {left : List OutputCall} {n : Nat}
    (h : Run past s) (hu : s.Utters left) (he : s.Ends n)
    (hc : ∀ u ∈ s.trail n ++ [s.run n], u.driver.cancelled = false) :
    (s.trail n).flatMap speaks = left := by
  induction n generalizing past s left with
  | zero => exact (hu.eq_nil he.ended (hc s (by simp [run]))).symm
  | succ n ih =>
    obtain ⟨hs, hn⟩ := (ends_succ hu.agenda).mp he
    obtain ⟨later, hl, hsaid⟩ := h.utters_step hu hs
    have ha : ¬ s.agenda.isEmpty = true := by simpa using hu.agenda
    rw [Session.trail, run, if_neg ha, if_neg ha, List.cons_append, List.forall_mem_cons] at hc
    rw [Session.trail, if_neg ha, List.flatMap_cons, ih (h.move (.step s)) hl hn hc.2]
    exact hsaid hc.1

theorem utters_of_delivered {landed : Session} {audio : List UInt8} {markers : List Marker}
    {rest : List Task} (hd : landed.agenda = .land (.delivered audio markers) :: rest) :
    landed.step.Utters (Playback.rounds landed.config.format
      (Driver.playable landed.config audio) markers).flatten := by
  refine ⟨[], .start landed.config.format (Driver.playable landed.config audio) markers, rest, ?_,
    rfl, rfl⟩
  rw [step, hd]
  rfl

/-- A delivery is played to its end, and in full if the flag stays down. -/
theorem Run.delivered_in_full {past : List Session} {landed : Session} {audio : List UInt8}
    {markers : List Marker} {rest : List Task} (h : Run past landed)
    (hd : landed.agenda = .land (.delivered audio markers) :: rest) :
    (∃ n, landed.Ends n) ∧
      ∀ n, landed.Ends n →
        (∀ u ∈ landed.trail n ++ [landed.run n], u.driver.cancelled = false) →
        (landed.trail n).flatMap speaks = (Playback.rounds landed.config.format
          (Driver.playable landed.config audio) markers).flatten := by
  have hne : landed.agenda ≠ [] := by simp [hd]
  have ho : landed.occurrence ≠ .ended := by
    rw [occurrence, hd]
    exact Occurrence.noConfusion
  have hu := utters_of_delivered hd
  have hs := h.move (.step landed)
  constructor
  · obtain ⟨n, hn⟩ := hs.exists_end hu
    exact ⟨n + 1, (ends_succ hne).mpr ⟨ho, hn⟩⟩
  · intro n hn hc
    cases n with
    | zero => exact absurd hn.ended ho
    | succ n =>
      have ha : ¬ landed.agenda.isEmpty = true := by simpa using hne
      rw [Session.trail, run, if_neg ha, if_neg ha, List.cons_append, List.forall_mem_cons] at hc
      have hsaid := hs.said_until_end hu ((ends_succ hne).mp hn).2 hc.2
      rw [Session.trail, if_neg ha, List.flatMap_cons, hsaid, speaks, hd]
      rfl

/-- An utterance that is delivered stems from a call to speak and is played to an end. With no
cancel from that call to that end, the flag is down all the time, the audio is fed whole, and each
bookmark is reported. -/
theorem uncancelled_in_full {past : List Session} {landed : Session} {audio : List UInt8}
    {markers : List Marker} {rest : List Task} (h : Run past landed)
    (hd : landed.agenda = .land (.delivered audio markers) :: rest) :
    (∃ before call document between, past = before ++ call :: between ∧
      Origin before call document between landed ∧ landed.handed.getLast? = some document) ∧
    (∃ n, landed.Ends n) ∧
    ∀ before call document between n, past = before ++ call :: between →
      Origin before call document between landed → landed.Ends n →
      (∀ u ∈ between ++ landed.trail n, u.occurrence ≠ .cancelled) →
      (∀ u ∈ landed.trail n ++ [landed.run n], u.driver.cancelled = false) ∧
      (Playback.fed ((landed.trail n).flatMap speaks)).flatten =
        (if landed.config.headerLength < audio.length then audio.drop landed.config.headerLength
          else audio) ∧
      Playback.reported ((landed.trail n).flatMap speaks) =
        markers.filterMap Playback.bookmark? := by
  obtain ⟨hend, hfull⟩ := h.delivered_in_full hd
  refine ⟨?_, hend, ?_⟩
  · apply h.exists_origin
    simp [outstanding, hd, Task.holdsSink]
  · rintro before call document between n rfl ho hn hc
    rw [List.forall_mem_append] at hc
    have hflag := clear_trail (h.clear_of_origin ho hc.1) hc.2
    rw [hfull n hn hflag]
    exact ⟨hflag, Playback.fed_rounds _ _ _, Playback.reported_rounds _ _ _⟩

/-- A driver whose client cancels the first utterance from inside its first chunk, and asks for
the second one from inside the stop that follows. -/
def restless : Session :=
  start ⟨.standard, 2, fun _ => true⟩ true [⟨.feed, 1, .cancel⟩, ⟨.stop, 1, .speak [.text "b"]⟩]
    (oneVoice .inline [⟨[0, 0, 1, 2], [], none⟩,
      ⟨[0, 0, 1, 2, 3, 4, 5, 6], [.ofTicks "1" 454, .ofTicks "b" 500, .ofTicks "2" 908], none⟩])

def askedTwice : Session := restless.receive (.speak [.text "a"])

def stopping : Session := askedTwice.run 6

def redelivered : Session := stopping.run 5

theorem run_redelivered :
    Run ((restless :: askedTwice.trail 6) ++ stopping :: stopping.step.trail 4) redelivered :=
  (((Run.start _ _ _ _).move (.receive (.speak [.text "a"]) rfl)).trail 6).trail 5

theorem second_utterance_in_full :
    ∃ before call document between n,
      Run (before ++ call :: between) redelivered ∧
      Origin before call document between redelivered ∧ redelivered.Ends n ∧
      (∀ u ∈ between ++ redelivered.trail n, u.occurrence ≠ .cancelled) ∧
      (∀ u ∈ redelivered.trail n ++ [redelivered.run n], u.driver.cancelled = false) ∧
      (Playback.fed ((redelivered.trail n).flatMap speaks)).flatten = [1, 2, 3, 4, 5, 6] ∧
      Playback.reported ((redelivered.trail n).flatMap speaks) = [1, 2] := by
  have hd : redelivered.agenda = .land (.delivered [0, 0, 1, 2, 3, 4, 5, 6]
      [.ofTicks "1" 454, .ofTicks "b" 500, .ofTicks "2" 908]) :: redelivered.agenda.tail := rfl
  have ho : Origin (restless :: askedTwice.trail 6) stopping
      (restless.driver.document "en-US" [.text "b"]) (stopping.step.trail 4) redelivered := by
    constructor
    · rfl
    · decide
  have he : redelivered.Ends 11 := by
    constructor
    · rfl
    · decide
  have hc : ∀ u ∈ stopping.step.trail 4 ++ redelivered.trail 11, u.occurrence ≠ .cancelled := by
    decide
  obtain ⟨_, _, hfull⟩ := uncancelled_in_full run_redelivered hd
  exact ⟨_, _, _, _, 11, run_redelivered, ho, he, hc, hfull _ _ _ _ _ rfl ho he hc⟩

end Session

end SpeechBridge

import Mathlib.Data.List.Induction
import SpeechBridge.Proofs.Utterances

/-!
# The order of speech

A ledger keeps the documents of all calls to speak, in the order of the calls, and notes which of
them a cancel found in the queue. Main statement: what the engine was handed, followed by the
queue, is the ledger without the noted ones.
-/
namespace SpeechBridge

/-- The document of a call to speak, and whether a cancel has found it in the queue. -/
structure Spoken where
  document : String
  discarded : Bool
  deriving DecidableEq, Repr

def Occurrence.document? : Occurrence → Option String
  | spoken document => some document
  | _ => none

namespace Ledger

def discardLast (count : Nat) (ledger : List Spoken) : List Spoken :=
  ledger.take (ledger.length - count) ++
    (ledger.drop (ledger.length - count)).map fun e => { e with discarded := true }

def enter (ledger : List Spoken) (queued : Nat) : Occurrence → List Spoken
  | .spoken document => ledger ++ [⟨document, false⟩]
  | .cancelled => discardLast queued ledger
  | _ => ledger

def kept (ledger : List Spoken) : List String :=
  (ledger.filter fun e => !e.discarded).map Spoken.document

/-- The queue ends the ledger, and what comes before it and was kept has been handed over. -/
def Agrees (ledger : List Spoken) (v : Standing) : Prop :=
  ∃ settled, ledger = settled ++ v.pending.map (⟨·, false⟩) ∧ v.handed = kept settled

theorem kept_append (a b : List Spoken) : kept (a ++ b) = kept a ++ kept b := by
  simp [kept, List.filter_append]

theorem kept_queued (documents : List String) :
    kept (documents.map (⟨·, false⟩)) = documents := by
  simp [kept, List.filter_map, Function.comp_def]

theorem kept_discarded (documents : List String) :
    kept (documents.map (⟨·, true⟩)) = [] := by
  simp [kept, List.filter_map, Function.comp_def]

theorem discardLast_queued (settled : List Spoken) (documents : List String) :
    discardLast documents.length (settled ++ documents.map (⟨·, false⟩)) =
      settled ++ documents.map (⟨·, true⟩) := by
  simp [discardLast, Function.comp_def]

theorem document_discardLast (count : Nat) (ledger : List Spoken) :
    (discardLast count ledger).map Spoken.document = ledger.map Spoken.document := by
  have h : (ledger.drop (ledger.length - count)).map (fun e => { e with discarded := true }.document) =
      (ledger.drop (ledger.length - count)).map Spoken.document := rfl
  rw [discardLast, List.map_append, List.map_map, Function.comp_def, h, ← List.map_append,
    List.take_append_drop]

theorem document_enter (ledger : List Spoken) (queued : Nat) (e : Occurrence) :
    (enter ledger queued e).map Spoken.document =
      ledger.map Spoken.document ++ e.document?.toList := by
  cases e with
  | spoken document => simp [enter, Occurrence.document?]
  | cancelled => simp [enter, Occurrence.document?, document_discardLast]
  | _ => simp [enter, Occurrence.document?]

theorem agrees_step {ledger : List Spoken} {v w : Standing} {e : Occurrence}
    (h : Standing.Step v e w) (hq : v.processing = false → v.pending = [])
    (ha : Agrees ledger v) : Agrees (enter ledger v.pending.length e) w := by
  obtain ⟨settled, hl, hh⟩ := ha
  cases h with
  | queue v document hp =>
    refine ⟨settled, ?_, hh⟩
    simp [enter, hl]
  | submit v document hp =>
    refine ⟨settled ++ [⟨document, false⟩], ?_, ?_⟩
    · simp [enter, hl, hq hp]
    · rw [kept_append, ← hh]
      rfl
  | refuse v document hp =>
    refine ⟨settled ++ [⟨document, false⟩], ?_, ?_⟩
    · simp [enter, hl, hq hp]
    · rw [kept_append, ← hh]
      rfl
  | cancel v =>
    refine ⟨settled ++ v.pending.map (⟨·, true⟩), ?_, ?_⟩
    · rw [enter, hl, discardLast_queued]
      simp
    · rw [kept_append, kept_discarded, List.append_nil]
      exact hh
  | finish v => exact ⟨settled, hl, hh⟩
  | drop => exact ⟨settled, hl, hh⟩
  | goOn v refused document rest hd =>
    refine ⟨settled ++ (refused ++ [document]).map (⟨·, false⟩), ?_, ?_⟩
    · simp [enter, hl, hd]
    · rw [kept_append, kept_queued]
      exact congrArg (· ++ _) hh
  | rest v =>
    refine ⟨settled ++ v.pending.map (⟨·, false⟩), ?_, ?_⟩
    · simp [enter, hl]
    · rw [kept_append, kept_queued]
      exact congrArg (· ++ _) hh
  | other => exact ⟨settled, hl, hh⟩

end Ledger

namespace Session

open Ledger

def ledger (past : List Session) : List Spoken :=
  past.foldl (fun entries s => enter entries s.driver.pending.length s.occurrence) []

theorem ledger_concat (past : List Session) (s : Session) :
    ledger (past ++ [s]) = enter (ledger past) s.driver.pending.length s.occurrence := by
  simp [ledger]

theorem Run.agrees {past : List Session} {s : Session} (h : Run past s) :
    Agrees (ledger past) s.standing := by
  induction h with
  | start config reportsIdle hooks engine =>
    rw [standing_start]
    exact ⟨[], rfl, rfl⟩
  | @move past s t hr hm ih =>
    rw [ledger_concat]
    exact agrees_step (refines_move hm) hr.balanced.queue ih

theorem document_ledger (past : List Session) :
    (ledger past).map Spoken.document = past.filterMap (·.occurrence.document?) := by
  refine List.reverseRecOn past rfl fun past s ih => ?_
  rw [ledger_concat, document_enter, List.filterMap_append, ← ih]
  cases h : s.occurrence.document? <;> simp [h]

theorem exists_speak_of_spoken {s : Session} {task : Task} {document : String}
    (h : s.occurrenceOf task = .spoken document) :
    ∃ caller items, task = .call caller (.speak items) := by
  cases task with
  | call caller c =>
    cases c with
    | speak items => exact ⟨caller, items, rfl⟩
    | _ => cases h
  | land fate => cases fate <;> cases h
  | play rest =>
    simp only [occurrenceOf] at h
    split at h <;> cases h
  | _ => cases h

theorem heard_eq_spoken_iff {s : Session} {items : List SpeechItem} {document : String} :
    s.heard items = .spoken document ↔
      ∃ language, (Driver.language.run s.engine).result = .ok language ∧
        document = Converter.convert ⟨language, .leveled s.driver.settings.volume⟩ items := by
  unfold heard
  cases h : (Driver.language.run s.engine).result with
  | ok language =>
    constructor
    · intro hd
      exact ⟨language, rfl, (Occurrence.spoken.inj hd).symm⟩
    · rintro ⟨language', hl, rfl⟩
      rw [Except.ok.inj hl]
  | error e =>
    constructor
    · intro hd
      cases hd
    · rintro ⟨language, hl, _⟩
      cases hl

theorem occurrence_eq_spoken_iff {s : Session} {document : String} :
    s.occurrence = .spoken document ↔
      ∃ caller items rest, s.agenda = .call caller (.speak items) :: rest ∧
        s.heard items = .spoken document := by
  unfold occurrence
  cases s.agenda with
  | nil => simp
  | cons task rest =>
    constructor
    · intro ho
      obtain ⟨caller, items, rfl⟩ := exists_speak_of_spoken ho
      exact ⟨caller, items, rest, rfl, ho⟩
    · rintro ⟨caller, items, rest', hc, ho⟩
      rw [(List.cons.inj hc).1]
      exact ho

/-- The engine is handed the documents of the calls to speak, each once and in the order of the
calls, but for those that are queued and those that a cancel found queued. -/
theorem speech_in_order {past : List Session} {s : Session} (h : Run past s) :
    (∀ (t : Session) document, t.occurrence = .spoken document ↔
      ∃ caller items rest language, t.agenda = .call caller (.speak items) :: rest ∧
        (Driver.language.run t.engine).result = .ok language ∧
        document = Converter.convert ⟨language, .leveled t.driver.settings.volume⟩ items) ∧
    (ledger past).map Spoken.document = past.filterMap (·.occurrence.document?) ∧
    (∃ settled, ledger past = settled ++ s.driver.pending.map (⟨·, false⟩)) ∧
    s.handed ++ s.driver.pending = kept (ledger past) := by
  refine ⟨?_, document_ledger past, ?_, ?_⟩
  · intro t document
    simp only [occurrence_eq_spoken_iff, heard_eq_spoken_iff, exists_and_left]
  · obtain ⟨settled, hl, _⟩ := h.agrees
    exact ⟨settled, hl⟩
  · obtain ⟨settled, hl, hh⟩ := h.agrees
    rw [hl, kept_append, kept_queued, ← hh]
    rfl

def resumed : Session :=
  (fresh (oneVoice .manual [])).requestAll
    [.speak [.text "a"], .speak [.text "b"], .cancel, .speak [.text "c"], .completeAll]

theorem resumed_in_order :
    ∃ past, Run past resumed ∧
    (∀ (t : Session) document, t.occurrence = .spoken document ↔
      ∃ caller items rest language, t.agenda = .call caller (.speak items) :: rest ∧
        (Driver.language.run t.engine).result = .ok language ∧
        document = Converter.convert ⟨language, .leveled t.driver.settings.volume⟩ items) ∧
    (ledger past).map Spoken.document = past.filterMap (·.occurrence.document?) ∧
    (∃ settled, ledger past = settled ++ resumed.driver.pending.map (⟨·, false⟩)) ∧
    resumed.handed ++ resumed.driver.pending = kept (ledger past) := by
  obtain ⟨⟨past, h⟩, _⟩ : (∃ past, Run past resumed) ∧ resumed.agenda = [] :=
    (Run.start _ _ _ _).requestAll rfl _
  exact ⟨past, h, speech_in_order h⟩

end Session

end SpeechBridge

import Mathlib.Data.List.Forall2
import SpeechBridge.Number.Total
import SpeechBridge.Platform.Conduct

/-!
# Attachments

A continuation is attached to an operation by a call that sets a handler. From then on the platform
may call the handler on any thread and as often as it likes, also before the call has returned, and
the call itself may fail. Each such notice is handled alike: get the lock, take the continuation out
of the slot, release the lock, call what was taken. Notices count in the order in which they get the
lock, as before that a handling does nothing that another one could see. Main statement: however the
handlings interleave, the continuation is called once, for the first notice.
-/
namespace SpeechBridge

/-- The platform has called the handler, or refused to take one. -/
inductive Notice (α : Type) where
  | ended (conduct : Conduct) (value : α)
  | refused (code : UInt32)

def Notice.outcome {α : Type} : Notice α → Except Error α
  | ended conduct value => conduct.report value
  | refused code => .error (.platform code)

namespace Notice

variable {α : Type}

/-- What the continuation is to be told. A handler may be called without an operation. An operation
that has completed gives its value, unless its results cannot be had; for one that has failed the
platform tells the code, unless that cannot be had either. -/
inductive Tells : Notice α → Except Error α → Prop where
  | missing {c : Conduct} {value : α} (hm : c.missing = true) :
      Tells (ended c value) (.error .missingResult)
  | completed {c : Conduct} {value : α} (hm : c.missing = false) (hs : c.status = .completed)
      (hr : c.resultsCode = none) : Tells (ended c value) (.ok value)
  | withoutResults {c : Conduct} {value : α} {code : UInt32} (hm : c.missing = false)
      (hs : c.status = .completed) (hr : c.resultsCode = some code) :
      Tells (ended c value) (.error (.platform code))
  | canceled {c : Conduct} {value : α} (hm : c.missing = false) (hs : c.status = .canceled) :
      Tells (ended c value) (.error .canceled)
  | failed {c : Conduct} {value : α} (hm : c.missing = false)
      (hs : c.status = .started ∨ c.status = .error) (hi : c.infoCode = none) :
      Tells (ended c value) (.error (.platform c.errorCode))
  | withoutCode {c : Conduct} {value : α} {code : UInt32} (hm : c.missing = false)
      (hs : c.status = .started ∨ c.status = .error) (hi : c.infoCode = some code) :
      Tells (ended c value) (.error (.platform code))
  | refused (code : UInt32) : Tells (refused code) (.error (.platform code))

theorem Tells.eq_outcome {n : Notice α} {told : Except Error α} (h : n.Tells told) :
    told = n.outcome := by
  cases h with
  | missing hm => simp [outcome, Conduct.report, hm]
  | completed hm hs hr => simp [outcome, Conduct.report, hm, hs, hr]
  | withoutResults hm hs hr => simp [outcome, Conduct.report, hm, hs, hr]
  | canceled hm hs => simp [outcome, Conduct.report, hm, hs]
  | failed hm hs hi => rcases hs with hs | hs <;> simp [outcome, Conduct.report, hm, hs, hi]
  | withoutCode hm hs hi => rcases hs with hs | hs <;> simp [outcome, Conduct.report, hm, hs, hi]
  | refused code => rfl

theorem tells_outcome (n : Notice α) : n.Tells n.outcome := by
  cases n with
  | refused code => exact .refused code
  | ended c value =>
    rw [outcome, Conduct.report]
    cases hm : c.missing with
    | true => exact .missing hm
    | false =>
      cases hs : c.status with
      | completed =>
        cases hr : c.resultsCode with
        | none => exact .completed hm hs hr
        | some code => exact .withoutResults hm hs hr
      | canceled => exact .canceled hm hs
      | started =>
        cases hi : c.infoCode with
        | none => exact .failed hm (.inl hs) hi
        | some code => exact .withoutCode hm (.inl hs) hi
      | error =>
        cases hi : c.infoCode with
        | none => exact .failed hm (.inr hs) hi
        | some code => exact .withoutCode hm (.inr hs) hi

end Notice

namespace Attachment

/-- How far the handling of a notice is. Between lock and call it knows what it has to call. -/
inductive Stage (κ α : Type) where
  | arrived
  | locked
  | taken (due : List (Invocation κ α))
  | released (due : List (Invocation κ α))
  | calling
  | done

structure Handling (κ α : Type) where
  notice : Notice α
  stage : Stage κ α

end Attachment

/-- The handlings have the numbers of their places, in the order in which the notices arrived. -/
structure Attachment (κ α : Type) where
  slot : Slot κ
  holder : Option Nat
  setting : Bool
  handlings : List (Attachment.Handling κ α)
  order : List Nat
  calls : List (Invocation κ α)

namespace Attachment

variable {κ α : Type}

namespace Stage

def holds : Stage κ α → Bool
  | locked | taken _ => true
  | _ => false

def due : Stage κ α → List (Invocation κ α)
  | taken due | released due => due
  | _ => []

def left : Stage κ α → Nat
  | arrived => 5
  | locked => 4
  | taken _ => 3
  | released _ => 2
  | calling => 1
  | done => 0

end Stage

inductive Event (α : Type) where
  | notify (conduct : Conduct) (value : α)
  | accept
  | refuse (code : UInt32)
  | proceed (number : Nat)

def start (k : κ) : Attachment κ α := ⟨.full k, none, true, [], [], []⟩

def arrive (s : Attachment κ α) (notice : Notice α) : Attachment κ α :=
  { s with handlings := s.handlings ++ [⟨notice, .arrived⟩] }

def put (s : Attachment κ α) (i : Nat) (h : Handling κ α) (stage : Stage κ α) : Attachment κ α :=
  { s with handlings := s.handlings.set i { h with stage } }

def proceed (s : Attachment κ α) (i : Nat) (h : Handling κ α) : Option (Attachment κ α) :=
  match h.stage with
  | .arrived =>
    if s.holder.isNone then
      some { s.put i h .locked with holder := some i, order := s.order ++ [i] }
    else none
  | .locked =>
    let (slot, due) := s.slot.take h.notice.outcome
    some { s.put i h (.taken due) with slot }
  | .taken due => some { s.put i h (.released due) with holder := none }
  | .released due =>
    some { s.put i h (if due.isEmpty then .done else .calling) with calls := s.calls ++ due }
  | .calling => some (s.put i h .done)
  | .done => none

def step (s : Attachment κ α) : Event α → Option (Attachment κ α)
  | .notify conduct value => some (s.arrive (.ended conduct value))
  | .accept => if s.setting then some { s with setting := false } else none
  | .refuse code =>
    if s.setting then some { s.arrive (.refused code) with setting := false } else none
  | .proceed i => s.handlings[i]?.bind (s.proceed i)

def run (s : Attachment κ α) (events : List (Event α)) : Option (Attachment κ α) :=
  events.foldlM step s

/-- Between these states notices may arrive, and nothing else happens. -/
structure Receives (s t : Attachment κ α) : Prop where
  slot : t.slot = s.slot
  holder : t.holder = s.holder
  order : t.order = s.order
  calls : t.calls = s.calls
  handlings : ∃ new, t.handlings = s.handlings ++ new ∧ ∀ h ∈ new, h.stage = .arrived

theorem receives_arrive (s : Attachment κ α) (notice : Notice α) : s.Receives (s.arrive notice) :=
  ⟨rfl, rfl, rfl, rfl, _, rfl, by simp⟩

theorem Receives.kept {s t : Attachment κ α} (hr : s.Receives t) {i : Nat} {h : Handling κ α}
    (hi : s.handlings[i]? = some h) : t.handlings[i]? = some h := by
  obtain ⟨new, hnew, -⟩ := hr.handlings
  rw [hnew, List.getElem?_append_left (List.getElem?_eq_some_iff.mp hi).1, hi]

theorem Receives.new {s t : Attachment κ α} (hr : s.Receives t) {i : Nat} {h : Handling κ α}
    (hi : t.handlings[i]? = some h) : s.handlings[i]? = some h ∨ h.stage = .arrived := by
  obtain ⟨new, hnew, harrived⟩ := hr.handlings
  by_cases hlt : i < s.handlings.length
  · rw [hnew, List.getElem?_append_left hlt] at hi
    exact .inl hi
  · rw [hnew, List.getElem?_append_right (Nat.le_of_not_lt hlt)] at hi
    exact .inr (harrived h (List.mem_of_getElem? hi))

theorem step_cases {s t : Attachment κ α} {e : Event α} (hs : s.step e = some t) :
    s.Receives t ∨ ∃ i h, s.handlings[i]? = some h ∧ s.proceed i h = some t := by
  cases e with
  | notify conduct value =>
    obtain rfl := Option.some.inj hs
    exact .inl (receives_arrive s _)
  | accept =>
    simp only [step, Option.ite_none_right_eq_some, Option.some.injEq] at hs
    obtain ⟨-, rfl⟩ := hs
    exact .inl ⟨rfl, rfl, rfl, rfl, [], (List.append_nil _).symm, by simp⟩
  | refuse code =>
    simp only [step, Option.ite_none_right_eq_some, Option.some.injEq] at hs
    obtain ⟨-, rfl⟩ := hs
    exact .inl ⟨rfl, rfl, rfl, rfl, (receives_arrive s _).handlings⟩
  | proceed i =>
    obtain ⟨h, hi, hp⟩ := Option.bind_eq_some_iff.mp hs
    exact .inr ⟨i, h, hi, hp⟩

theorem getElem?_put {s : Attachment κ α} {i j : Nat} {h g : Handling κ α} {stage : Stage κ α}
    (hi : s.handlings[i]? = some h) :
    (s.handlings.set i { h with stage })[j]? = some g ↔
      (j = i ∧ g = { h with stage }) ∨ (j ≠ i ∧ s.handlings[j]? = some g) := by
  obtain ⟨hlt, -⟩ := List.getElem?_eq_some_iff.mp hi
  rw [List.getElem?_set]
  by_cases hj : i = j
  · subst hj
    simp [hlt, eq_comm]
  · simp [hj, Ne.symm hj]

theorem proceed_cases {s t : Attachment κ α} {i : Nat} {h : Handling κ α}
    (hp : s.proceed i h = some t) :
    (h.stage = .arrived ∧ s.holder = none ∧
      t = { s.put i h .locked with holder := some i, order := s.order ++ [i] }) ∨
    (h.stage = .locked ∧
      t = { s.put i h (.taken (s.slot.take h.notice.outcome).2) with
        slot := (s.slot.take h.notice.outcome).1 }) ∨
    (∃ due, h.stage = .taken due ∧ t = { s.put i h (.released due) with holder := none }) ∨
    (∃ due, h.stage = .released due ∧
      t = { s.put i h (if due.isEmpty then .done else .calling) with calls := s.calls ++ due }) ∨
    (h.stage = .calling ∧ t = s.put i h .done) := by
  obtain ⟨notice, stage⟩ := h
  cases stage with
  | arrived =>
    simp only [proceed, Option.ite_none_right_eq_some, Option.some.injEq,
      Option.isNone_iff_eq_none] at hp
    exact .inl ⟨rfl, hp.1, hp.2.symm⟩
  | locked => exact .inr (.inl ⟨rfl, (Option.some.inj hp).symm⟩)
  | taken due => exact .inr (.inr (.inl ⟨due, rfl, (Option.some.inj hp).symm⟩))
  | released due => exact .inr (.inr (.inr (.inl ⟨due, rfl, (Option.some.inj hp).symm⟩)))
  | calling => exact .inr (.inr (.inr (.inr ⟨rfl, (Option.some.inj hp).symm⟩)))
  | done => simp [proceed] at hp

theorem proceed_grows {s t : Attachment κ α} {i : Nat} {h : Handling κ α}
    (hp : s.proceed i h = some t) :
    s.order <+: t.order ∧ s.calls <+: t.calls ∧
      ∃ stage, t.handlings = s.handlings.set i { h with stage } ∧
        stage.left < h.stage.left ∧ (stage = .calling → t.calls ≠ []) := by
  rcases proceed_cases hp with
    ⟨hs, -, rfl⟩ | ⟨hs, rfl⟩ | ⟨due, hs, rfl⟩ | ⟨due, hs, rfl⟩ | ⟨hs, rfl⟩ <;> rw [hs]
  · exact ⟨List.prefix_append _ _, List.prefix_rfl, _, rfl, by simp [Stage.left], by simp⟩
  · exact ⟨List.prefix_rfl, List.prefix_rfl, _, rfl, by simp [Stage.left], by simp⟩
  · exact ⟨List.prefix_rfl, List.prefix_rfl, _, rfl, by simp [Stage.left], by simp⟩
  · refine ⟨List.prefix_rfl, List.prefix_append _ _, _, rfl, ?_, ?_⟩
    · cases due <;> simp [Stage.left]
    · cases due <;> simp
  · exact ⟨List.prefix_rfl, List.prefix_rfl, _, rfl, by simp [Stage.left], by simp⟩

theorem proceed_of_empty {s t : Attachment κ α} {i : Nat} {h : Handling κ α}
    (hslot : s.slot = .empty) (hp : s.proceed i h = some t) :
    t.slot = .empty ∧ ∃ stage begun, t.handlings = s.handlings.set i { h with stage } ∧
      t.calls = s.calls ++ begun ∧ h.stage.due = begun ++ stage.due := by
  rcases proceed_cases hp with
    ⟨hs, -, rfl⟩ | ⟨hs, rfl⟩ | ⟨due, hs, rfl⟩ | ⟨due, hs, rfl⟩ | ⟨hs, rfl⟩ <;> rw [hs]
  · exact ⟨hslot, _, [], rfl, (List.append_nil _).symm, rfl⟩
  · rw [hslot]
    exact ⟨rfl, _, [], rfl, (List.append_nil _).symm, rfl⟩
  · exact ⟨hslot, _, [], rfl, (List.append_nil _).symm, rfl⟩
  · refine ⟨hslot, _, due, rfl, rfl, ?_⟩
    cases due <;> simp [Stage.due]
  · exact ⟨hslot, _, [], rfl, (List.append_nil _).symm, rfl⟩

def Locking (s : Attachment κ α) : Prop :=
  ∀ i, s.holder = some i ↔ ∃ h, s.handlings[i]? = some h ∧ h.stage.holds = true

/-- No handling has looked into the slot. -/
structure Waiting (k : κ) (s : Attachment κ α) : Prop where
  full : s.slot = .full k
  silent : s.calls = []
  order : s.order = s.holder.toList
  early : ∀ {i : Nat} {h : Handling κ α}, s.handlings[i]? = some h →
    h.stage = .arrived ∨ h.stage = .locked

/-- The continuation is with the handling that got the lock first, or called by it. -/
structure Answered (k : κ) (s : Attachment κ α) (i : Nat) (h : Handling κ α) : Prop where
  empty : s.slot = .empty
  first : s.order.head? = some i
  present : s.handlings[i]? = some h
  account : s.calls ++ h.stage.due = [⟨k, h.notice.outcome⟩]
  others : ∀ {j : Nat} {g : Handling κ α}, s.handlings[j]? = some g → j ≠ i → g.stage.due = []

theorem Locking.receives {s t : Attachment κ α} (hl : s.Locking) (hr : s.Receives t) :
    t.Locking := by
  intro i
  rw [hr.holder, hl i]
  constructor
  · rintro ⟨h, hi, hh⟩
    exact ⟨h, hr.kept hi, hh⟩
  · rintro ⟨h, hi, hh⟩
    rcases hr.new hi with hi | harrived
    · exact ⟨h, hi, hh⟩
    · rw [harrived] at hh
      exact absurd hh Bool.false_ne_true

theorem Locking.put {s t : Attachment κ α} (hl : s.Locking) {i : Nat} {h : Handling κ α}
    {stage : Stage κ α} (hi : s.handlings[i]? = some h)
    (ht : t.handlings = s.handlings.set i { h with stage })
    (hself : t.holder = some i ↔ stage.holds = true)
    (hother : ∀ j, j ≠ i → (t.holder = some j ↔ s.holder = some j)) : t.Locking := by
  intro j
  simp only [ht, getElem?_put hi]
  by_cases hj : j = i
  · subst hj
    rw [hself]
    constructor
    · exact fun hh => ⟨_, .inl ⟨rfl, rfl⟩, hh⟩
    · rintro ⟨g, ⟨-, rfl⟩ | ⟨hne, -⟩, hh⟩
      · exact hh
      · exact absurd rfl hne
  · rw [hother j hj, hl j]
    constructor
    · rintro ⟨g, hg, hh⟩
      exact ⟨g, .inr ⟨hj, hg⟩, hh⟩
    · rintro ⟨g, ⟨he, -⟩ | ⟨-, hg⟩, hh⟩
      · exact absurd he hj
      · exact ⟨g, hg, hh⟩

theorem Locking.proceed {s t : Attachment κ α} (hl : s.Locking) {i : Nat} {h : Handling κ α}
    (hi : s.handlings[i]? = some h) (hp : s.proceed i h = some t) : t.Locking := by
  have hholder : s.holder = some i ↔ h.stage.holds = true := by
    rw [hl i]
    simp [hi]
  rcases proceed_cases hp with
    ⟨hs, hnone, rfl⟩ | ⟨hs, rfl⟩ | ⟨due, hs, rfl⟩ | ⟨due, hs, rfl⟩ | ⟨hs, rfl⟩ <;>
    rw [hs] at hholder
  · refine hl.put hi rfl (iff_of_true rfl rfl) fun j hj => ?_
    simp [hnone, Ne.symm hj]
  · exact hl.put hi rfl hholder fun j _ => Iff.rfl
  · refine hl.put hi rfl (by simp [Stage.holds]) fun j hj => ?_
    simp [hholder.mpr rfl, Ne.symm hj]
  · refine hl.put hi rfl ?_ fun j _ => Iff.rfl
    cases due <;> exact hholder
  · exact hl.put hi rfl hholder fun j _ => Iff.rfl

theorem Waiting.receives {k : κ} {s t : Attachment κ α} (hw : s.Waiting k) (hr : s.Receives t) :
    t.Waiting k where
  full := hr.slot.trans hw.full
  silent := hr.calls.trans hw.silent
  order := by rw [hr.order, hr.holder, hw.order]
  early hi := (hr.new hi).elim hw.early .inl

theorem Answered.receives {k : κ} {s t : Attachment κ α} {i : Nat} {h : Handling κ α}
    (ha : s.Answered k i h) (hr : s.Receives t) : t.Answered k i h where
  empty := hr.slot.trans ha.empty
  first := by rw [hr.order, ha.first]
  present := hr.kept ha.present
  account := by rw [hr.calls, ha.account]
  others hj hne := (hr.new hj).elim (fun hs => ha.others hs hne) fun harrived => by
    rw [harrived]
    rfl

theorem Waiting.proceed {k : κ} {s t : Attachment κ α} (hw : s.Waiting k) (hl : s.Locking) {i : Nat}
    {h : Handling κ α} (hi : s.handlings[i]? = some h) (hp : s.proceed i h = some t) :
    t.Waiting k ∨ ∃ g, t.Answered k i g := by
  have hstage := hw.early hi
  rcases proceed_cases hp with
    ⟨-, hnone, rfl⟩ | ⟨hs, rfl⟩ | ⟨due, hs, rfl⟩ | ⟨due, hs, rfl⟩ | ⟨hs, rfl⟩
  · refine .inl ⟨hw.full, hw.silent, ?_, fun {j g} hj => ?_⟩
    · simp [hw.order, hnone]
    · rcases (getElem?_put hi).mp hj with ⟨-, rfl⟩ | ⟨-, hj⟩
      · exact .inr rfl
      · exact hw.early hj
  · have hholder : s.holder = some i := (hl i).mpr ⟨h, hi, by rw [hs]; rfl⟩
    refine .inr ⟨_, ?_, ?_, (getElem?_put hi).mpr (.inl ⟨rfl, rfl⟩), ?_, fun {j g} hj hne => ?_⟩
    · rw [hw.full]
      rfl
    · simp [put, hw.order, hholder]
    · simp [put, Stage.due, hw.silent, hw.full, Slot.take, Slot.full]
    · rcases (getElem?_put hi).mp hj with ⟨he, -⟩ | ⟨-, hj⟩
      · exact absurd he hne
      · rcases hw.early hj with harrived | hlocked
        · simp [harrived, Stage.due]
        · simp [hlocked, Stage.due]
  all_goals simp [hs] at hstage

theorem Answered.proceed {k : κ} {s t : Attachment κ α} {first i : Nat} {g h : Handling κ α}
    (ha : s.Answered k first g) (hi : s.handlings[i]? = some h) (hp : s.proceed i h = some t) :
    ∃ g', t.Answered k first g' := by
  obtain ⟨hempty, stage, begun, hset, hcalls, hdue⟩ := proceed_of_empty ha.empty hp
  obtain ⟨later, horder⟩ := (proceed_grows hp).1
  have hfirst : t.order.head? = some first := by
    rw [← horder, List.head?_append, ha.first]
    rfl
  by_cases hif : i = first
  · subst hif
    obtain rfl := Option.some.inj (ha.present.symm.trans hi)
    refine ⟨{ g with stage }, hempty, hfirst, ?_, ?_, fun {j f} hj hne => ?_⟩
    · rw [hset]
      exact (getElem?_put hi).mpr (.inl ⟨rfl, rfl⟩)
    · rw [hcalls, List.append_assoc, ← hdue, ha.account]
    · rw [hset] at hj
      rcases (getElem?_put hi).mp hj with ⟨he, -⟩ | ⟨-, hj⟩
      · exact absurd he hne
      · exact ha.others hj hne
  · rw [ha.others hi hif] at hdue
    obtain ⟨hbegun, hrest⟩ := List.append_eq_nil_iff.mp hdue.symm
    refine ⟨g, hempty, hfirst, ?_, ?_, fun {j f} hj hne => ?_⟩
    · rw [hset]
      exact (getElem?_put hi).mpr (.inr ⟨Ne.symm hif, ha.present⟩)
    · rw [hcalls, hbegun, List.append_nil, ha.account]
    · rw [hset] at hj
      rcases (getElem?_put hi).mp hj with ⟨-, rfl⟩ | ⟨-, hj⟩
      · exact hrest
      · exact ha.others hj hne

/-- Holds in every state of a run. -/
structure Consistent (k : κ) (s : Attachment κ α) : Prop where
  locking : s.Locking
  place : s.Waiting k ∨ ∃ first h, s.Answered k first h
  begun : ∀ {i : Nat} {h : Handling κ α}, s.handlings[i]? = some h →
    h.stage = .calling → s.calls ≠ []

theorem consistent_start (k : κ) : (start k : Attachment κ α).Consistent k where
  locking i := by simp [start]
  place := .inl ⟨rfl, rfl, rfl, by simp [start]⟩
  begun := by simp [start]

theorem Consistent.receives {k : κ} {s t : Attachment κ α} (hc : s.Consistent k)
    (hr : s.Receives t) : t.Consistent k where
  locking := hc.locking.receives hr
  place := hc.place.imp (·.receives hr) fun ⟨first, h, ha⟩ => ⟨first, h, ha.receives hr⟩
  begun hi hcalling := by
    rw [hr.calls]
    rcases hr.new hi with hi | harrived
    · exact hc.begun hi hcalling
    · exact absurd (harrived.symm.trans hcalling) (by simp)

theorem Consistent.proceed {k : κ} {s t : Attachment κ α} (hc : s.Consistent k) {i : Nat}
    {h : Handling κ α} (hi : s.handlings[i]? = some h) (hp : s.proceed i h = some t) :
    t.Consistent k where
  locking := hc.locking.proceed hi hp
  place := by
    rcases hc.place with hw | ⟨first, g, ha⟩
    · exact (hw.proceed hc.locking hi hp).imp_right fun ⟨g, ha⟩ => ⟨i, g, ha⟩
    · obtain ⟨g', ha'⟩ := ha.proceed hi hp
      exact .inr ⟨first, g', ha'⟩
  begun {j g} hj hcalling := by
    obtain ⟨-, ⟨later, hcalls⟩, stage, hset, -, hbegun⟩ := proceed_grows hp
    rw [hset] at hj
    rcases (getElem?_put hi).mp hj with ⟨-, rfl⟩ | ⟨-, hj⟩
    · exact hbegun hcalling
    · rw [← hcalls]
      exact List.append_ne_nil_of_left_ne_nil (hc.begun hj hcalling) _

theorem Consistent.step {k : κ} {s t : Attachment κ α} (hc : s.Consistent k) {e : Event α}
    (hs : s.step e = some t) : t.Consistent k := by
  rcases step_cases hs with hr | ⟨i, h, hi, hp⟩
  · exact hc.receives hr
  · exact hc.proceed hi hp

theorem run_cons_eq_some_iff {s t : Attachment κ α} {e : Event α} {events : List (Event α)} :
    s.run (e :: events) = some t ↔ ∃ u, s.step e = some u ∧ u.run events = some t := by
  rw [run, List.foldlM_cons]
  exact Option.bind_eq_some_iff

theorem Consistent.run {k : κ} {s t : Attachment κ α} (hc : s.Consistent k)
    {events : List (Event α)} (hr : s.run events = some t) : t.Consistent k := by
  induction events generalizing s with
  | nil =>
    cases hr
    exact hc
  | cons e events ih =>
    obtain ⟨u, hs, hu⟩ := run_cons_eq_some_iff.mp hr
    exact ih (hc.step hs) hu

theorem run_grows {s t : Attachment κ α} {events : List (Event α)} (hr : s.run events = some t) :
    s.order <+: t.order ∧ s.calls <+: t.calls := by
  induction events generalizing s with
  | nil =>
    cases hr
    exact ⟨List.prefix_rfl, List.prefix_rfl⟩
  | cons e events ih =>
    obtain ⟨u, hs, hu⟩ := run_cons_eq_some_iff.mp hr
    obtain ⟨horder, hcalls⟩ := ih hu
    rcases step_cases hs with hrec | ⟨i, h, hi, hp⟩
    · rw [← hrec.order, ← hrec.calls]
      exact ⟨horder, hcalls⟩
    · obtain ⟨ho, hc, -⟩ := proceed_grows hp
      exact ⟨ho.trans horder, hc.trans hcalls⟩

/-- No handling is on its way to a call. -/
def Settled (s : Attachment κ α) : Prop :=
  ∀ {i : Nat} {h : Handling κ α}, s.handlings[i]? = some h → h.stage = .calling ∨ h.stage = .done

def weight (s : Attachment κ α) : Nat := total (·.stage.left) s.handlings

theorem weight_proceed {s t : Attachment κ α} {i : Nat} {h : Handling κ α}
    (hi : s.handlings[i]? = some h) (hp : s.proceed i h = some t) : t.weight < s.weight := by
  obtain ⟨-, -, stage, hset, hleft, -⟩ := proceed_grows hp
  have htotal := total_set (fun h : Handling κ α => h.stage.left) hi { h with stage }
  rw [weight, weight, hset]
  dsimp only at htotal
  omega

/-- No handling waits for a call to return: if the lock is taken its holder can go on, else any. -/
theorem Locking.exists_proceed {s : Attachment κ α} (hl : s.Locking) (hs : ¬ s.Settled) :
    ∃ i h t, s.handlings[i]? = some h ∧ h.stage ≠ .calling ∧ s.proceed i h = some t := by
  cases hholder : s.holder with
  | some i =>
    obtain ⟨⟨notice, stage⟩, hi, hholds⟩ := (hl i).mp hholder
    cases stage with
    | locked | taken due => exact ⟨i, _, _, hi, by simp, rfl⟩
    | arrived | released due | calling | done => exact absurd hholds Bool.false_ne_true
  | none =>
    simp only [Settled, Classical.not_forall, not_or] at hs
    obtain ⟨i, ⟨notice, stage⟩, hi, hcalling, hdone⟩ := hs
    cases stage with
    | arrived => exact ⟨i, _, _, hi, by simp, by rw [Attachment.proceed, hholder]; rfl⟩
    | released due => exact ⟨i, _, _, hi, by simp, rfl⟩
    | locked | taken due =>
      have hlocked : s.holder = some i := (hl i).mpr ⟨_, hi, rfl⟩
      simp [hholder] at hlocked
    | calling => exact absurd rfl hcalling
    | done => exact absurd rfl hdone

theorem Locking.exists_settled {s : Attachment κ α} (hl : s.Locking) :
    ∃ (more : List Nat) (t : Attachment κ α), s.run (more.map .proceed) = some t ∧ t.Settled ∧
      t.handlings.length = s.handlings.length ∧
      ∀ {i : Nat} {h : Handling κ α}, s.handlings[i]? = some h → h.stage = .calling →
        t.handlings[i]? = some h := by
  -- on the steps that are left, of which each step of a handling uses up one at least
  induction hn : s.weight using Nat.strongRecOn generalizing s with
  | ind n ih =>
    by_cases hs : s.Settled
    · exact ⟨[], s, rfl, hs, rfl, fun hi _ => hi⟩
    · obtain ⟨i, h, u, hi, hcalling, hp⟩ := hl.exists_proceed hs
      obtain ⟨-, -, stage, hset, -, -⟩ := proceed_grows hp
      obtain ⟨more, t, hrun, ht, hlength, hkept⟩ :=
        ih u.weight (hn ▸ weight_proceed hi hp) (hl.proceed hi hp) rfl
      refine ⟨i :: more, t, ?_, ht, by rw [hlength, hset, List.length_set], fun {j g} hj hg => ?_⟩
      · rw [List.map_cons, run_cons_eq_some_iff]
        exact ⟨u, by rw [step, hi]; exact hp, hrun⟩
      · refine hkept ?_ hg
        rw [hset]
        refine (getElem?_put hi).mpr (.inr ⟨?_, hj⟩)
        rintro rfl
        obtain rfl := Option.some.inj (hi.symm.trans hj)
        exact hcalling hg

/-- The continuation was called, once, with what the notice that got the lock first tells. -/
def Called (k : κ) (s : Attachment κ α) : Prop :=
  ∃ first h told, s.order.head? = some first ∧ s.handlings[first]? = some h ∧
    h.notice.Tells told ∧ s.calls = [⟨k, told⟩]

/-- The arrivals report what the notices tell, in the order in which these got the lock. -/
def Reported (s : Attachment κ α) (arrivals : List (Arrival α)) : Prop :=
  List.Forall₂ (fun i a => ∃ h, s.handlings[i]? = some h ∧ h.notice.Tells a.report) s.order arrivals

theorem Called.receiveAll_eq {k : κ} {s : Attachment κ α} (hc : s.Called k)
    {arrivals : List (Arrival α)} (hr : s.Reported arrivals) :
    ((Slot.full k).receiveAll arrivals).2 = s.calls := by
  obtain ⟨first, h, told, hfirst, hh, htold, hcalls⟩ := hc
  obtain ⟨others, horder⟩ := List.head?_eq_some_iff.mp hfirst
  rw [Reported, horder] at hr
  cases hr with
  | @cons _ a _ arrivals ha _ =>
    obtain ⟨g, hg, ha⟩ := ha
    obtain rfl := Option.some.inj (hh.symm.trans hg)
    rw [hcalls, Slot.receiveAll_full, htold.eq_outcome, ← ha.eq_outcome]
    rfl

theorem Consistent.calls {k : κ} {s : Attachment κ α} (hc : s.Consistent k) :
    s.calls = [] ∨ s.Called k := by
  rcases hc.place with hw | ⟨first, h, ha⟩
  · exact .inl hw.silent
  · rcases List.append_eq_singleton_iff.mp ha.account with ⟨hcalls, -⟩ | ⟨hcalls, -⟩
    · exact .inl hcalls
    · exact .inr ⟨first, h, _, ha.first, ha.present, h.notice.tells_outcome, hcalls⟩

theorem Consistent.called {k : κ} {s : Attachment κ α} (hc : s.Consistent k) (hs : s.Settled)
    (hne : s.handlings ≠ []) : s.Called k := by
  rcases hc.place with hw | ⟨first, h, ha⟩
  · obtain ⟨h, handlings, hh⟩ := List.exists_cons_of_ne_nil hne
    have hi : s.handlings[0]? = some h := by
      rw [hh]
      rfl
    have hstage := hs hi
    rcases hw.early hi with hearly | hearly <;> simp [hearly] at hstage
  · have hdue : h.stage.due = [] := by
      rcases hs ha.present with hstage | hstage <;> rw [hstage] <;> rfl
    have hcalls := ha.account
    rw [hdue, List.append_nil] at hcalls
    exact ⟨first, h, _, ha.first, ha.present, h.notice.tells_outcome, hcalls⟩

theorem Consistent.first_lt {k : κ} {s : Attachment κ α} (hc : s.Consistent k) {first : Nat}
    (hfirst : s.order.head? = some first) : first < s.handlings.length := by
  rcases hc.place with hw | ⟨i, h, ha⟩
  · have hholder : s.holder = some first := by
      rw [hw.order] at hfirst
      simpa using hfirst
    obtain ⟨h, hi, -⟩ := (hc.locking first).mp hholder
    exact (List.getElem?_eq_some_iff.mp hi).1
  · obtain rfl : i = first := Option.some.inj (ha.first.symm.trans hfirst)
    exact (List.getElem?_eq_some_iff.mp ha.present).1

theorem Consistent.order_eq_nil {k : κ} {s : Attachment κ α} (hc : s.Consistent k)
    (hnil : s.handlings = []) : s.order = [] := by
  cases horder : s.order with
  | nil => rfl
  | cons first others =>
    have hlt : first < s.handlings.length := hc.first_lt (by rw [horder]; rfl)
    simp [hnil] at hlt

theorem Consistent.receiveAll_eq {k : κ} {s : Attachment κ α} (hc : s.Consistent k)
    (hs : s.Settled) {arrivals : List (Arrival α)} (hr : s.Reported arrivals) :
    ((Slot.full k).receiveAll arrivals).2 = s.calls := by
  by_cases hnil : s.handlings = []
  · rcases hc.calls with hcalls | hcalled
    · rw [Reported, hc.order_eq_nil hnil, List.forall₂_nil_left_iff] at hr
      rw [hcalls, hr]
      rfl
    · exact hcalled.receiveAll_eq hr
  · exact (hc.called hs hnil).receiveAll_eq hr

theorem Consistent.of_calling {k : κ} {s : Attachment κ α} (hc : s.Consistent k) {i : Nat}
    {h : Handling κ α} (hi : s.handlings[i]? = some h) (hcalling : h.stage = .calling) :
    s.Called k ∧ s.slot = .empty ∧ s.holder ≠ some i := by
  have hbegun := hc.begun hi hcalling
  refine ⟨hc.calls.resolve_left hbegun, ?_, ?_⟩
  · rcases hc.place with hw | ⟨first, g, ha⟩
    · exact absurd hw.silent hbegun
    · exact ha.empty
  · intro hholder
    obtain ⟨g, hg, hholds⟩ := (hc.locking i).mp hholder
    obtain rfl := Option.some.inj (hi.symm.trans hg)
    rw [hcalling] at hholds
    exact Bool.false_ne_true hholds

theorem Consistent.calls_of_grows {k : κ} {s t : Attachment κ α} (hc : t.Consistent k)
    (hs : s.Called k) (hcalls : s.calls <+: t.calls) : t.calls = s.calls := by
  obtain ⟨_, _, _, _, _, _, hs⟩ := hs
  rw [hs] at hcalls ⊢
  rcases hc.calls with ht | ⟨_, _, _, _, _, _, ht⟩
  · rw [ht] at hcalls
    simp at hcalls
  · rw [ht] at hcalls ⊢
    exact (hcalls.eq_of_length rfl).symm

/-- A continuation is never called twice, and exactly once if a notice arrives. -/
structure Once (k : κ) (s : Attachment κ α) : Prop where
  calls : s.calls = [] ∨ s.Called k
  settles : ∃ (more : List Nat) (t : Attachment κ α), s.run (more.map .proceed) = some t ∧
    t.Settled ∧ (s.handlings ≠ [] → t.Called k) ∧
    ∀ {i : Nat} {h : Handling κ α}, s.handlings[i]? = some h → h.stage = .calling →
      t.handlings[i]? = some h
  /-- The calls are then those of a slot that gets the outcomes in this order, whatever else it gets
  during the call. -/
  settled : s.Settled → (s.handlings ≠ [] → s.Called k) ∧
    ∀ arrivals : List (Arrival α), s.Reported arrivals →
      ((Slot.full k).receiveAll arrivals).2 = s.calls
  calling : ∀ {i : Nat} {h : Handling κ α}, s.handlings[i]? = some h → h.stage = .calling →
    s.Called k ∧ s.slot = .empty ∧ s.holder ≠ some i
  /-- The first notice stays the first and is none that arrives later. What happens after the call
  has begun adds no call. -/
  later : ∀ {events : List (Event α)} {t : Attachment κ α}, s.run events = some t →
    (∀ first, s.order.head? = some first →
      first < s.handlings.length ∧ t.order.head? = some first) ∧
    (s.Called k → t.calls = s.calls)

/-- Whatever the platform tells of an operation, on whichever threads and in whichever order they go
on, the continuation is called once, with what the notice that got the lock first tells. -/
theorem continuation_called_once {k : κ} {events : List (Event α)} {s : Attachment κ α}
    (h : (start k).run events = some s) : s.Once k := by
  have hc := (consistent_start k).run h
  refine ⟨hc.calls, ?_, ?_, hc.of_calling, ?_⟩
  · obtain ⟨more, t, hrun, ht, hlength, hkept⟩ := hc.locking.exists_settled
    refine ⟨more, t, hrun, ht, fun hne => (hc.run hrun).called ht ?_, hkept⟩
    intro hnil
    rw [hnil] at hlength
    exact hne (List.length_eq_zero_iff.mp hlength.symm)
  · intro hs
    exact ⟨hc.called hs, fun arrivals hr => hc.receiveAll_eq hs hr⟩
  · intro events t hrun
    obtain ⟨⟨others, horder⟩, hcalls⟩ := run_grows hrun
    refine ⟨fun first hfirst => ⟨hc.first_lt hfirst, ?_⟩, fun hs => ?_⟩
    · rw [← horder, List.head?_append, hfirst]
      rfl
    · exact (hc.run hrun).calls_of_grows hs hcalls

/-- The handler is called while it is being set, for an operation whose results cannot be had. The
continuation still runs when setting it fails and when it is called again. -/
def failing : List (Event Nat) :=
  [.notify { Conduct.plain with resultsCode := some 6 } 8,
    .proceed 0, .proceed 0, .proceed 0, .proceed 0, .refuse 5, .notify .plain 7,
    .proceed 2, .proceed 2, .proceed 2, .proceed 2, .proceed 1]

def failed : Attachment String Nat where
  slot := .empty
  holder := some 1
  setting := false
  handlings := [⟨.ended { Conduct.plain with resultsCode := some 6 } 8, .calling⟩,
    ⟨.refused 5, .locked⟩, ⟨.ended .plain 7, .done⟩]
  order := [0, 2, 1]
  calls := [⟨"then", .error (.platform 6)⟩]

theorem failed_called_once :
    (start "then").run failing = some failed ∧ failed.Once "then" ∧
      failed.Reported
        [.mk (.error (.platform 6)) [], .mk (.ok 7) [], .mk (.error (.platform 5)) []] := by
  have hrun : (start "then").run failing = some failed := rfl
  refine ⟨hrun, continuation_called_once hrun, ?_⟩
  apply List.Forall₂.cons ⟨_, rfl, .withoutResults rfl rfl rfl⟩
  apply List.Forall₂.cons ⟨_, rfl, .completed rfl rfl rfl⟩
  exact .cons ⟨_, rfl, .refused 5⟩ .nil

end Attachment

end SpeechBridge

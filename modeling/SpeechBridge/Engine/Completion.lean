import SpeechBridge.Error

/-!
# Completion of operations

An operation in progress reports its outcome to a continuation. Platforms may report several
times, or not at all, at once or from a parked job. The continuation sits in a slot that the
first report empties; later reports, and reports that arrive while the continuation runs, find
the slot empty.
-/
namespace SpeechBridge

/-- What an operation will report, and when: while a continuation is attached to it, or when a
parked job runs. -/
inductive Operation (α : Type) where
  | atOnce (reports : List (Except Error α))
  | parked (reports : List (Except Error α))

/-- A report together with the reports that arrive while it is being handled. -/
inductive Arrival (α : Type) where
  | mk (report : Except Error α) (during : List (Arrival α))

def Arrival.report {α : Type} : Arrival α → Except Error α
  | mk report _ => report

/-- Holds a continuation until it is called. -/
structure Slot (κ : Type) where
  continuation : Option κ
  deriving DecidableEq, Repr

structure Invocation (κ α : Type) where
  continuation : κ
  outcome : Except Error α

namespace Slot

variable {κ α : Type}

def full (k : κ) : Slot κ := ⟨some k⟩

def empty : Slot κ := ⟨none⟩

/-- Takes the continuation out for a call with the report. -/
def take (s : Slot κ) (report : Except Error α) : Slot κ × List (Invocation κ α) :=
  match s.continuation with
  | some k => (empty, [⟨k, report⟩])
  | none => (s, [])

mutual

/-- Handles a report and whatever arrives meanwhile. -/
def receive (s : Slot κ) : Arrival α → Slot κ × List (Invocation κ α)
  | .mk report during =>
    let first := s.take report
    let rest := receiveAll first.1 during
    (rest.1, first.2 ++ rest.2)

def receiveAll (s : Slot κ) : List (Arrival α) → Slot κ × List (Invocation κ α)
  | [] => (s, [])
  | a :: as =>
    let first := receive s a
    let rest := receiveAll first.1 as
    (rest.1, first.2 ++ rest.2)

end

def calls (s : Slot κ) (reports : List (Except Error α)) : List (Invocation κ α) :=
  (s.receiveAll (reports.map fun r => .mk r [])).2

mutual

theorem receive_empty : (a : Arrival α) → (empty : Slot κ).receive a = (empty, [])
  | .mk _ during => by
    have h := receiveAll_empty during
    simp only [receive, take, empty] at h ⊢
    rw [h]
    rfl

theorem receiveAll_empty : (as : List (Arrival α)) → (empty : Slot κ).receiveAll as = (empty, [])
  | [] => rfl
  | a :: as => by simp [receiveAll, receive_empty a, receiveAll_empty as]

end

theorem receiveAll_full (k : κ) (arrivals : List (Arrival α)) :
    ((full k).receiveAll arrivals).2 = (arrivals.head?.map fun a => ⟨k, a.report⟩).toList := by
  cases arrivals with
  | nil => rfl
  | cons a as =>
    cases a with
    | mk report during =>
      simp only [receiveAll, receive, take, full]
      rw [receiveAll_empty, receiveAll_empty]
      rfl

theorem calls_full (k : κ) (reports : List (Except Error α)) :
    (full k).calls reports = (reports.head?.map fun r => ⟨k, r⟩).toList := by
  rw [calls, receiveAll_full]
  cases reports <;> rfl

end Slot

end SpeechBridge

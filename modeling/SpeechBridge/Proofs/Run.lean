import Mathlib.Data.List.Induction
import SpeechBridge.Driver.Settling

/-!
# Runs

A run begins with a new driver. It goes on by a step or, when nothing is left to do, by a call of
the client. What the client calls from output calls is part of the session as its hooks, so every
order of calls, completions and nested calls is a run.
-/
namespace SpeechBridge.Session

def receive (s : Session) (c : DriverCall) : Session :=
  { s with agenda := s.agenda ++ [.call .outside c], result := none }

theorem request_eq (s : Session) (c : DriverCall) : s.request c = (s.receive c).settle := rfl

inductive Move : Session → Session → Prop where
  | step (s) : Move s s.step
  | receive {s} (c) : s.agenda = [] → Move s (s.receive c)

/-- The sessions that a run has been through, earliest first, and the one it has come to. -/
inductive Run : List Session → Session → Prop where
  | start (config reportsIdle hooks engine) : Run [] (start config reportsIdle hooks engine)
  | move {past s t} : Run past s → Move s t → Run (past ++ [s]) t

/-- The sessions that a run of so many steps at most goes through. -/
def trail : Nat → Session → List Session
  | 0, _ => []
  | n + 1, s => if s.agenda.isEmpty then [] else s :: trail n s.step

theorem Run.trail {past : List Session} {s : Session} (h : Run past s) (n : Nat) :
    Run (past ++ s.trail n) (s.run n) := by
  induction n generalizing past s with
  | zero => rwa [Session.trail, List.append_nil]
  | succ n ih =>
    rw [Session.trail, Session.run]
    split
    · rwa [List.append_nil]
    · have hn := ih (h.move (.step s))
      rwa [List.append_assoc] at hn

theorem Run.steps {past : List Session} {s : Session} (h : Run past s) (n : Nat) :
    ∃ later, Run (past ++ later) (s.run n) :=
  ⟨s.trail n, h.trail n⟩

/-- A call with everything that it leads to continues a run, and leaves nothing to do. -/
theorem Run.request {past : List Session} {s : Session} (h : Run past s) (ha : s.agenda = [])
    (c : DriverCall) :
    (∃ later, Run (past ++ s :: later) (s.request c)) ∧ (s.request c).agenda = [] := by
  constructor
  · obtain ⟨later, hl⟩ := (h.move (.receive c ha)).steps (s.receive c).weight
    rw [List.append_assoc] at hl
    rw [request_eq, settle]
    exact ⟨later, hl⟩
  · exact agenda_request s c

def requestAll (s : Session) (calls : List DriverCall) : Session := calls.foldl request s

theorem Run.requestAll {past : List Session} {s : Session} (h : Run past s) (ha : s.agenda = [])
    (calls : List DriverCall) :
    (∃ later, Run (past ++ later) (s.requestAll calls)) ∧ (s.requestAll calls).agenda = [] := by
  induction calls generalizing past s with
  | nil => exact ⟨⟨[], by rwa [List.append_nil]⟩, ha⟩
  | cons c calls ih =>
    obtain ⟨⟨first, hf⟩, hc⟩ := h.request ha c
    obtain ⟨⟨later, hl⟩, hr⟩ := ih hf hc
    rw [List.append_assoc] at hl
    exact ⟨⟨s :: first ++ later, hl⟩, hr⟩

theorem Run.last {past : List Session} {s t : Session} (h : Run (past ++ [s]) t) :
    Run past s ∧ Move s t := by
  generalize hp : past ++ [s] = whole at h
  cases h with
  | start => simp at hp
  | move hr hm =>
    obtain ⟨rfl, hs⟩ := List.append_inj' hp rfl
    cases hs
    exact ⟨hr, hm⟩

theorem Run.before {past later : List Session} {s t : Session} (h : Run (past ++ s :: later) t) :
    Run past s := by
  induction later using List.reverseRecOn generalizing t with
  | nil => exact h.last.1
  | append_singleton later u ih =>
    rw [show past ++ s :: (later ++ [u]) = (past ++ s :: later) ++ [u] by simp] at h
    exact ih h.last.1

end SpeechBridge.Session

import SpeechBridge.Proofs.Run

/-!
# Begun rounds

Playback looks at the flag before it begins a round, and a round that has begun is finished. Main
statements: with the flag up, output is only made from what was begun, and what is begun at any
other time than inside an output call of its own is a single report at most.
-/
namespace SpeechBridge

def OutputCall.isSpeech : OutputCall → Bool
  | feed _ | index _ => true
  | stop | idle => false

namespace Playback

/-- Each round is a chunk and at most one report, of which a begun round has the report left. -/
structure Regular (p : Playback) : Prop where
  round : p.round = [] ∨ ∃ n, p.round = [.index n]
  later : ∀ r ∈ p.later, r = [] ∨ ∃ chunk waiting, r = .feed chunk :: report waiting

theorem regular_roundsFrom (f : AudioFormat) (audio : List UInt8) (position : Nat)
    (waiting : Option Nat) (ms : List Marker) :
    ∀ r ∈ roundsFrom f audio position waiting ms,
      r = [] ∨ ∃ chunk waiting, r = .feed chunk :: report waiting := by
  induction ms generalizing position waiting with
  | nil =>
    intro r hr
    right
    exact ⟨_, waiting, List.mem_singleton.mp hr⟩
  | cons m ms ih =>
    intro r hr
    rw [roundsFrom] at hr
    split at hr
    · rcases List.mem_cons.mp hr with rfl | hr
      · left
        rfl
      · exact ih position waiting r hr
    · rcases List.mem_cons.mp hr with rfl | hr
      · right
        exact ⟨_, waiting, rfl⟩
      · exact ih _ _ r hr

theorem regular_start (f : AudioFormat) (audio : List UInt8) (ms : List Marker) :
    (start f audio ms).Regular := by
  constructor
  · left
    rfl
  · exact regular_roundsFrom f audio 0 none ms

theorem report_eq (waiting : Option Nat) :
    report waiting = [] ∨ ∃ n, report waiting = [.index n] := by
  cases waiting with
  | none => exact Or.inl rfl
  | some n => exact Or.inr ⟨n, rfl⟩

theorem regular_of_nextRound {cancelled : Bool} {rounds : List Round} {call : OutputCall}
    {q : Playback} (h : ∀ r ∈ rounds, r = [] ∨ ∃ chunk waiting, r = .feed chunk :: report waiting)
    (hn : nextRound cancelled rounds = some (call, q)) : q.Regular := by
  induction rounds with
  | nil => simp [nextRound] at hn
  | cons r rs ih =>
    obtain ⟨hr, hrs⟩ := List.forall_mem_cons.mp h
    rcases hr with rfl | ⟨chunk, waiting, rfl⟩
    · simp only [nextRound] at hn
      split at hn
      · cases hn
      · exact ih hrs hn
    · simp only [nextRound] at hn
      split at hn
      · cases hn
      · simp only [Option.some.injEq, Prod.mk.injEq] at hn
        obtain ⟨_, rfl⟩ := hn
        constructor
        · exact report_eq waiting
        · exact hrs

theorem Regular.next {cancelled : Bool} {p q : Playback} {call : OutputCall} (h : p.Regular)
    (hn : p.next cancelled = some (call, q)) : q.Regular := by
  rw [Playback.next] at hn
  split at hn
  next c rest hr =>
    simp only [Option.some.injEq, Prod.mk.injEq] at hn
    obtain ⟨_, rfl⟩ := hn
    refine ⟨Or.inl ?_, h.later⟩
    rcases h.round with he | ⟨n, he⟩
    · rw [he] at hr
      cases hr
    · rw [he] at hr
      exact (List.cons.inj hr).2.symm
  next => exact regular_of_nextRound h.later hn

theorem round_of_next_cancelled {p q : Playback} {call : OutputCall}
    (hn : p.next true = some (call, q)) : p.round = call :: q.round := by
  rw [Playback.next] at hn
  split at hn
  next c rest hr =>
    simp only [Option.some.injEq, Prod.mk.injEq] at hn
    obtain ⟨rfl, rfl⟩ := hn
    exact hr
  next =>
    cases hl : p.later with
    | nil => simp [hl, nextRound] at hn
    | cons r rs => simp [hl, nextRound] at hn

theorem round_of_next_none {cancelled : Bool} {p : Playback} (hn : p.next cancelled = none) :
    p.round = [] := by
  rw [Playback.next] at hn
  split at hn
  · cases hn
  next hr => exact hr

end Playback

namespace Task

def speaks : Task → List OutputCall
  | output c => [c].filter OutputCall.isSpeech
  | _ => []

/-- Calls for an utterance that are made whether or not it is cancelled. -/
def begun : Task → List OutputCall
  | output c => [c].filter OutputCall.isSpeech
  | play rest => rest.round.filter OutputCall.isSpeech
  | _ => []

def isPlay : Task → Bool
  | play _ => true
  | _ => false

theorem begun_of_not_play {task : Task} (h : task.isPlay = false) : task.begun = task.speaks := by
  cases task with
  | play rest => cases h
  | _ => rfl

theorem speaks_of_begun {task : Task} (h : task.begun = []) : task.speaks = [] := by
  cases task with
  | output c => exact h
  | _ => rfl

/-- A task that brings no begun round, and no irregular one. -/
structure Calm (task : Task) : Prop where
  begun : task.begun = []
  regular : ∀ rest, task = .play rest → rest.Regular

theorem calm_of_not_play {task : Task} (h : task.begun = []) (hp : task.isPlay = false) :
    task.Calm := by
  refine ⟨h, ?_⟩
  intro rest hr
  rw [hr] at hp
  cases hp

/-- A kind of tasks that has all that a task may bring up by itself. -/
structure Admits (p : Task → Prop) : Prop where
  answer : ∀ caller a, p (.answer caller a)
  hook : ∀ c, p (.call .hook c)
  drain : ∀ caller count, p (.drain caller count)
  stop : p (.output .stop)
  land : ∀ fate, p (.land fate)
  start : ∀ f audio ms, p (.play (.start f audio ms))
  advance : p .advance

theorem admits_calm : Admits Calm where
  answer _ _ := calm_of_not_play rfl rfl
  hook _ := calm_of_not_play rfl rfl
  drain _ _ := calm_of_not_play rfl rfl
  stop := calm_of_not_play rfl rfl
  land _ := calm_of_not_play rfl rfl
  start f audio ms := by
    refine ⟨rfl, ?_⟩
    intro rest hr
    cases hr
    exact Playback.regular_start f audio ms
  advance := calm_of_not_play rfl rfl

end Task

namespace Session

def speaks (s : Session) : List OutputCall :=
  match s.agenda with
  | [] => []
  | task :: _ => task.speaks

def begun (s : Session) : List OutputCall := s.agenda.flatMap Task.begun

def Brings (p : Task → Prop) (s t : Session) : Prop :=
  ∃ tasks, t.agenda = tasks ++ s.agenda ∧ ∀ x ∈ tasks, p x

section Brings

variable {p : Task → Prop}

theorem Brings.of_eq {s t : Session} (h : t.agenda = s.agenda) : Brings p s t := by
  refine ⟨[], h, ?_⟩
  intro x hx
  cases hx

theorem Brings.trans {s t u : Session} (h : Brings p s t) (k : Brings p t u) : Brings p s u := by
  obtain ⟨first, hf, hpf⟩ := h
  obtain ⟨second, hs, hps⟩ := k
  refine ⟨second ++ first, ?_, ?_⟩
  · rw [hs, hf, List.append_assoc]
  · intro x hx
    rcases List.mem_append.mp hx with hx | hx
    · exact hps x hx
    · exact hpf x hx

theorem brings_push (s : Session) {task : Task} (h : p task) : Brings p s (s.push [task]) := by
  refine ⟨[task], rfl, ?_⟩
  intro x hx
  rw [List.mem_singleton.mp hx]
  exact h

variable (hp : Task.Admits p)

include hp

theorem brings_answer (s : Session) (caller : Caller) (a : Answer) :
    Brings p s (s.answer caller a) := s.brings_push (hp.answer caller a)

theorem brings_place (s : Session) (progress : Progress Outcome Outcome Unit) :
    Brings p s (s.place progress) := by
  cases progress with
  | waiting job => exact .of_eq rfl
  | ended _ fate => exact s.brings_push (hp.land fate)

theorem brings_resume (s : Session) (job : DriverJob) : Brings p s (s.resume job) :=
  (Brings.of_eq rfl).trans (brings_place hp _ _)

theorem brings_forward {α : Type} (s : Session) (caller : Caller)
    (act : Act ScriptedEngine EngineEvent α) (value : α → Value) :
    Brings p s (s.forward caller act value) :=
  (Brings.of_eq rfl).trans (brings_answer hp _ _ _)

theorem brings_speak (s : Session) (caller : Caller) (items : List SpeechItem) :
    Brings p s (s.speak caller items) := by
  rw [speak]
  split
  next t e h =>
    obtain ⟨rfl, _⟩ := Prod.mk.inj h
    exact (Brings.of_eq rfl).trans (brings_answer hp _ _ _)
  next t language h =>
    obtain ⟨rfl, _⟩ := Prod.mk.inj h
    dsimp only
    split
    · exact (Brings.of_eq rfl).trans (brings_answer hp _ _ _)
    · split
      next u progress hu =>
        obtain ⟨rfl, _⟩ := Prod.mk.inj hu
        exact ((Brings.of_eq rfl).trans (brings_answer hp _ _ _)).trans (brings_place hp _ _)
      next u e hu =>
        obtain ⟨rfl, _⟩ := Prod.mk.inj hu
        exact (Brings.of_eq rfl).trans (brings_answer hp _ _ _)

theorem brings_cancel (s : Session) (caller : Caller) : Brings p s (s.cancel caller) := by
  refine ⟨[.output .stop, .answer caller (.returned .done)], rfl, ?_⟩
  intro x hx
  rcases List.mem_cons.mp hx with rfl | hx
  · exact hp.stop
  · rw [List.mem_singleton.mp hx]
    exact hp.answer _ _

theorem brings_call (s : Session) (caller : Caller) (c : DriverCall) :
    Brings p s (s.call caller c) := by
  cases c with
  | speak items => exact brings_speak hp s caller items
  | cancel => exact brings_cancel hp s caller
  | complete index =>
    rw [call]
    split
    · exact brings_answer hp _ _ _
    next job _ =>
      have hs : Brings p s { s with parked := s.parked.eraseIdx index } := .of_eq rfl
      exact hs.trans ((brings_answer hp _ _ _).trans (brings_resume hp _ _))
  | completeAll => exact s.brings_push (hp.drain _ _)
  | setVolume percent => exact (Brings.of_eq rfl).trans (brings_answer hp _ _ _)
  | setRate percent => exact (Brings.of_eq rfl).trans (brings_forward hp _ _ _ _)
  | setPitch percent => exact (Brings.of_eq rfl).trans (brings_forward hp _ _ _ _)
  | voices onlyValid => exact brings_forward hp _ _ _ _
  | voice => exact brings_forward hp _ _ _ _
  | language => exact brings_forward hp _ _ _ _
  | setVoice id => exact brings_forward hp _ _ _ _
  | direct d => exact brings_forward hp _ _ _ _

theorem brings_land (s : Session) (fate : Fate) : Brings p s (s.land fate) := by
  cases fate with
  | delivered audio markers => exact s.brings_push (hp.start _ _ _)
  | failed e => exact (Brings.of_eq rfl).trans (brings_push _ hp.advance)
  | dropped => exact .of_eq rfl

theorem brings_perform (s : Session) {task : Task} (hplay : task.isPlay = false)
    (hadvance : task ≠ .advance) : Brings p s (s.perform task) := by
  cases task with
  | call caller c => exact brings_call hp s caller c
  | answer caller a =>
    cases caller with
    | outside => exact .of_eq rfl
    | hook => exact .of_eq rfl
  | drain caller count =>
    rw [perform]
    split
    · exact brings_answer hp _ _ _
    next job rest _ =>
      exact (Brings.of_eq rfl).trans
        ((brings_push _ (hp.drain caller (count + 1))).trans (brings_resume hp _ _))
  | output c =>
    refine ⟨_, rfl, ?_⟩
    intro x hx
    obtain ⟨hook, _, rfl⟩ := List.mem_map.mp hx
    exact hp.hook _
  | land fate => exact brings_land hp s fate
  | play rest => cases hplay
  | advance => exact absurd rfl hadvance

/-- Going on brings up an end of what was submitted, or the driver is idle. -/
theorem brings_advanceThrough (s : Session) (documents : List String) :
    (Brings p s (s.advanceThrough documents) ∧
        (s.advanceThrough documents).driver.processing = s.driver.processing) ∨
      ((s.advanceThrough documents).agenda = .output .idle :: s.agenda ∧
        (s.advanceThrough documents).driver.processing = false) := by
  induction documents generalizing s with
  | nil => exact .inr ⟨rfl, rfl⟩
  | cons document documents ih =>
    rw [advanceThrough]
    split
    next t progress h =>
      obtain ⟨rfl, _⟩ := Prod.mk.inj h
      left
      refine ⟨(Brings.of_eq rfl).trans (brings_place hp _ _), ?_⟩
      cases progress <;> rfl
    next t e h =>
      obtain ⟨rfl, _⟩ := Prod.mk.inj h
      rcases ih _ with ⟨hb, hprocessing⟩ | hidle
      · exact .inl ⟨(Brings.of_eq rfl).trans hb, hprocessing⟩
      · exact .inr hidle

end Brings

def Grows (s t : Session) : Prop := ∃ tasks, t.agenda = tasks ++ s.agenda ∧ ∀ x ∈ tasks, x.Calm

theorem grows_perform (s : Session) {task : Task} (h : task.isPlay = false) :
    Grows s (s.perform task) := by
  by_cases ha : task = .advance
  · subst ha
    rcases brings_advanceThrough Task.admits_calm s s.driver.pending with ⟨hb, _⟩ | ⟨hidle, _⟩
    · exact hb
    · refine ⟨[.output .idle], hidle, ?_⟩
      intro x hx
      rw [List.mem_singleton.mp hx]
      exact Task.calm_of_not_play rfl rfl
  · exact brings_perform Task.admits_calm s h ha

theorem begun_of_grows {s t : Session} (h : Grows s t) : t.begun = s.begun := by
  obtain ⟨tasks, ht, hc⟩ := h
  have hb : tasks.flatMap Task.begun = [] := by
    apply List.flatMap_eq_nil_iff.mpr
    intro x hx
    exact (hc x hx).begun
  rw [begun, ht, List.flatMap_append, hb, List.nil_append, begun]

theorem begun_play {s : Session} (p : Playback) (h : s.driver.cancelled = true) :
    (s.perform (.play p)).begun = (Task.play p).begun ++ s.begun := by
  rw [perform, h]
  cases hn : p.next true with
  | none =>
    have hr := Playback.round_of_next_none hn
    simp [Task.begun, hr, begun, push]
  | some next =>
    have hr := Playback.round_of_next_cancelled hn
    simp only [Task.begun, begun, push, List.cons_append, List.nil_append, List.flatMap_cons, hr]
    rw [← List.append_assoc, ← List.filter_append]
    rfl

/-- While the flag is up, calls that are made are taken from what was begun. -/
theorem speaks_append_begun {s : Session}
    (h : s.driver.cancelled = true ∨ s.agenda.head?.any Task.isPlay = false) :
    s.speaks ++ s.step.begun = s.begun := by
  unfold step
  cases ha : s.agenda with
  | nil => simp [speaks, begun, ha]
  | cons task rest =>
    have hs : s.speaks = task.speaks := by rw [speaks, ha]
    have hb : s.begun = task.begun ++ ({ s with agenda := rest } : Session).begun := by
      rw [begun, ha, List.flatMap_cons]
      rfl
    rw [ha] at h
    rw [hs, hb]
    cases hp : task.isPlay with
    | false =>
      dsimp only
      rw [begun_of_grows (grows_perform { s with agenda := rest } hp), Task.begun_of_not_play hp]
    | true =>
      cases task with
      | play p =>
        rcases h with h | h
        · exact begun_play (s := { s with agenda := rest }) p h
        · cases h
      | _ => cases hp

/-- Of the tasks only the first makes a call at once, and playbacks are regular. -/
structure Orderly (s : Session) : Prop where
  tail : ∀ x ∈ s.agenda.tail, x.speaks = []
  regular : ∀ rest, .play rest ∈ s.agenda → rest.Regular

theorem orderly_of_grows {s t : Session} (h : Grows s t) (hs : ∀ x ∈ s.agenda, x.speaks = [])
    (hr : ∀ rest, .play rest ∈ s.agenda → rest.Regular) : Orderly t := by
  obtain ⟨tasks, ht, hcalm⟩ := h
  constructor
  · intro x hx
    rw [ht] at hx
    rcases List.mem_append.mp (List.mem_of_mem_tail hx) with hx | hx
    · exact Task.speaks_of_begun (hcalm x hx).begun
    · exact hs x hx
  · intro p hp
    rw [ht] at hp
    rcases List.mem_append.mp hp with hp | hp
    · exact (hcalm _ hp).regular p rfl
    · exact hr p hp

theorem orderly_play {s : Session} {p : Playback} (hp : p.Regular)
    (hs : ∀ x ∈ s.agenda, x.speaks = []) (hr : ∀ rest, .play rest ∈ s.agenda → rest.Regular) :
    Orderly (s.perform (.play p)) := by
  rw [perform]
  split
  next c q hn =>
    constructor
    · intro x hx
      rcases List.mem_cons.mp hx with rfl | hx
      · rfl
      · exact hs x hx
    · intro r hx
      simp only [push, List.cons_append, List.nil_append, List.mem_cons, reduceCtorEq, false_or,
        Task.play.injEq] at hx
      rcases hx with rfl | hx
      · exact hp.next hn
      · exact hr r hx
  next =>
    have hc : Task.advance.Calm := Task.calm_of_not_play rfl rfl
    exact orderly_of_grows (s.brings_push hc) hs hr

theorem Orderly.step {s : Session} (h : Orderly s) : Orderly s.step := by
  obtain ⟨hs, hr⟩ := h
  unfold Session.step
  cases ha : s.agenda with
  | nil =>
    constructor
    · simp [ha]
    · simp [ha]
  | cons task rest =>
    rw [ha] at hs hr
    have hrest : ∀ p, .play p ∈ rest → p.Regular := by
      intro p hp
      exact hr p (List.mem_cons_of_mem _ hp)
    cases hp : task.isPlay with
    | false => exact orderly_of_grows (grows_perform { s with agenda := rest } hp) hs hrest
    | true =>
      cases task with
      | play p =>
        exact orderly_play (s := { s with agenda := rest }) (hr p List.mem_cons_self) hs hrest
      | _ => cases hp

theorem Run.orderly {past : List Session} {s : Session} (h : Run past s) : Orderly s := by
  induction h with
  | start config reportsIdle hooks engine =>
    constructor
    · intro x hx
      cases hx
    · intro rest hr
      cases hr
  | move _ hm ih =>
    cases hm with
    | step => exact ih.step
    | receive c ha =>
      constructor
      · simp [receive, ha]
      · simp [receive, ha]

end Session

end SpeechBridge

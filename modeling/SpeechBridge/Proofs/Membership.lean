import SpeechBridge.Platform.Apartment
import SpeechBridge.Proofs.Submission

/-!
# Members of the apartment

The threads of a runtime start and stop in any order, and join the apartment and leave it on their
own. Main statement: a thread that has stopped has left as often as it has joined exactly if it
was let in, as the others leave all the same.
-/
namespace SpeechBridge

/-- Whether a thread that joins the apartment now succeeds. -/
def Platform.letsIn (p : Platform) : Bool :=
  (CallFailure.consult .joinApartment p.failures).2.isNone

structure Thread where
  found : Platform
  worker : Worker
  seen : List PlatformEvent
  running : Bool

structure Pool where
  platform : Platform
  threads : List Thread

namespace Thread

def started (p : Platform) : Thread :=
  ⟨p, (Worker.idle.start p).1, (Apartment.join.run p).events, true⟩

def stop (t : Thread) (p : Platform) : Thread :=
  { t with
    worker := (t.worker.stop p).1
    seen := t.seen ++ (Apartment.leave.run p).events
    running := false }

end Thread

namespace Pool

def start (p : Pool) : Pool :=
  { platform := (Worker.idle.start p.platform).2
    threads := p.threads ++ [.started p.platform] }

inductive Move : Pool → Pool → Prop where
  | start (p) : Move p p.start
  | stop {p before t after} : p.threads = before ++ t :: after → t.running = true →
      Move p
        { platform := (t.worker.stop p.platform).2
          threads := before ++ t.stop p.platform :: after }
  /-- Whatever else happens, and whichever failures come, only the platform changes. -/
  | elsewhere (p platform) : Move p { p with platform }

inductive Reached : Pool → Prop where
  | empty (platform) : Reached ⟨platform, []⟩
  | move {p q} : Reached p → Move p q → Reached q

end Pool

namespace Apartment

theorem run_join_of_none {p : Platform}
    (h : (CallFailure.consult .joinApartment p.failures).2 = none) :
    (join.run p).result = .ok () ∧ (join.run p).events = [.joined multithreaded] := by
  have hp := Platform.run_pass .joinApartment p
  rw [h] at hp
  have hr : ((Platform.pass .joinApartment).run p).result = .ok () := by rw [hp]
  rw [join, Act.run_bind_of_ok hr, hp]
  exact ⟨rfl, rfl⟩

theorem run_join_of_some {p : Platform} {code : UInt32}
    (h : (CallFailure.consult .joinApartment p.failures).2 = some code) :
    (join.run p).result = .error (.platform code) ∧ (join.run p).events = [] := by
  have hp := Platform.run_pass .joinApartment p
  rw [h] at hp
  have hr : ((Platform.pass .joinApartment).run p).result = .error (.platform code) := by rw [hp]
  rw [join, Act.run_bind_of_error hr, hp]
  exact ⟨rfl, rfl⟩

end Apartment

namespace Thread

/-- What a thread has done so far, by whether it was let in and whether it still runs. -/
structure Accounted (t : Thread) : Prop where
  joined : t.worker.joined = if t.found.letsIn then 1 else 0
  warned : t.worker.warnings.length = if t.found.letsIn then 0 else 1
  left : t.worker.left = if t.running then 0 else 1
  joined_seen : t.seen.count (.joined Apartment.multithreaded) = t.worker.joined
  left_seen : t.seen.count .left = t.worker.left

theorem accounted_started (p : Platform) : (started p).Accounted := by
  cases h : (CallFailure.consult .joinApartment p.failures).2 with
  | none =>
    obtain ⟨hr, he⟩ := Apartment.run_join_of_none h
    have hl : p.letsIn = true := by rw [Platform.letsIn, h, Option.isNone_none]
    have hw : (Worker.idle.start p).1 = ⟨1, 0, []⟩ := by
      rw [Worker.start, hr]
      rfl
    constructor <;> simp [started, hw, hl, he]
  | some code =>
    obtain ⟨hr, he⟩ := Apartment.run_join_of_some h
    have hl : p.letsIn = false := by rw [Platform.letsIn, h, Option.isNone_some]
    have hw : (Worker.idle.start p).1 = ⟨0, 0,
        ["Runtime thread could not join the multithreaded apartment: " ++
          (Error.platform code).message]⟩ := by
      rw [Worker.start, hr]
      rfl
    constructor <;> simp [started, hw, hl, he]

/-- A thread leaves whether or not it has joined. -/
theorem Accounted.stop {t : Thread} (h : t.Accounted) (hr : t.running = true) (p : Platform) :
    (t.stop p).Accounted := by
  have hl : t.worker.left = 0 := by rw [h.left, if_pos hr]
  have he : (t.stop p).seen = t.seen ++ [.left] := rfl
  have hw : (t.stop p).worker = { t.worker with left := t.worker.left + 1 } := rfl
  constructor
  · exact h.joined
  · exact h.warned
  · rw [hw, hl]
    rfl
  · rw [hw, he, List.count_append, h.joined_seen]
    rfl
  · rw [hw, he, List.count_append, h.left_seen]
    rfl

end Thread

namespace Pool

theorem Move.accounted {p q : Pool} (h : Move p q) (hp : ∀ t ∈ p.threads, t.Accounted) :
    ∀ t ∈ q.threads, t.Accounted := by
  cases h with
  | start =>
    intro t ht
    rcases List.mem_append.mp ht with ht | ht
    · exact hp t ht
    · rw [List.mem_singleton.mp ht]
      exact Thread.accounted_started p.platform
  | @stop before t after hs hr =>
    rw [hs, List.forall_mem_append, List.forall_mem_cons] at hp
    obtain ⟨hbefore, ht, hafter⟩ := hp
    rw [List.forall_mem_append, List.forall_mem_cons]
    exact ⟨hbefore, ht.stop hr p.platform, hafter⟩
  | elsewhere => exact hp

theorem Reached.accounted {p : Pool} (h : Reached p) : ∀ t ∈ p.threads, t.Accounted := by
  induction h with
  | empty platform =>
    intro t ht
    cases ht
  | move _ hm ih => exact hm.accounted ih

/-- A thread that has stopped has left once. So it has left as often as it has joined if and only if
it was let in when it started, which is when it has not warned. -/
theorem balanced_iff_let_in {p : Pool} (h : Reached p) :
    ∀ t ∈ p.threads, t.running = false →
      t.seen.count (.joined Apartment.multithreaded) = (if t.found.letsIn then 1 else 0) ∧
      t.seen.count .left = 1 ∧
      (t.seen.count .left = t.seen.count (.joined Apartment.multithreaded) ↔
        t.found.letsIn = true) ∧
      (t.worker.warnings = [] ↔ t.found.letsIn = true) := by
  intro t ht hr
  obtain ⟨hjoined, hwarned, hleft, hjseen, hlseen⟩ := h.accounted t ht
  rw [hjoined] at hjseen
  rw [hleft, hr] at hlseen
  rw [hjseen, hlseen, ← List.length_eq_zero_iff, hwarned]
  cases t.found.letsIn <;> simp

def moody : Platform := ⟨.inline, [], [], [⟨.joinApartment, 0x80004005, 0, 1⟩]⟩

def crew : Pool := (start ⟨moody, []⟩).start

def dismissed : Pool := { crew with threads := crew.threads.map (·.stop crew.platform) }

theorem reached_dismissed : Reached dismissed := by
  have hcrew : Reached crew := ((Reached.empty moody).move (.start _)).move (.start _)
  have hsecond := hcrew.move (@Move.stop crew [_] _ [] rfl rfl)
  exact hsecond.move (@Move.stop _ [] _ _ rfl rfl)

def refused : Thread :=
  ⟨moody,
    ⟨0, 1, ["Runtime thread could not join the multithreaded apartment: " ++
      (Error.platform 0x80004005).message]⟩,
    [.left], false⟩

def admitted : Thread :=
  ⟨⟨.inline, [], [], [⟨.joinApartment, 0x80004005, 0, 0⟩]⟩, ⟨1, 1, []⟩, [.joined 1, .left], false⟩

theorem threads_dismissed : dismissed.threads = [refused, admitted] := rfl

theorem second_thread_balanced :
    Reached dismissed ∧ admitted ∈ dismissed.threads ∧ admitted.running = false ∧
      admitted.seen.count (.joined Apartment.multithreaded) = 1 ∧ admitted.seen.count .left = 1 ∧
      (admitted.seen.count .left = admitted.seen.count (.joined Apartment.multithreaded) ↔
        admitted.found.letsIn = true) ∧
      (admitted.worker.warnings = [] ↔ admitted.found.letsIn = true) := by
  have hm : admitted ∈ dismissed.threads := by simp [threads_dismissed]
  exact ⟨reached_dismissed, hm, rfl, balanced_iff_let_in reached_dismissed admitted hm rfl⟩

/-- A thread that could not join leaves an apartment that it is not in. -/
theorem unjoined_thread_leaves :
    ∃ p t, Reached p ∧ t ∈ p.threads ∧ t.running = false ∧
      t.seen.count (.joined Apartment.multithreaded) = 0 ∧ t.seen.count .left = 1 := by
  refine ⟨dismissed, refused, reached_dismissed, ?_, rfl, rfl, rfl⟩
  simp [threads_dismissed]

theorem Reached.startAll {p : Pool} (h : Reached p) (n : Nat) :
    ∃ q new, Reached q ∧ q.platform = (Worker.startAll n p.platform).2 ∧
      q.threads = p.threads ++ new ∧ new.map (·.worker) = (Worker.startAll n p.platform).1 ∧
      new.length = n ∧ ∀ t ∈ new, t.running = true := by
  induction n generalizing p with
  | zero => exact ⟨p, [], h, rfl, (List.append_nil _).symm, rfl, rfl, List.forall_mem_nil _⟩
  | succ n ih =>
    obtain ⟨q, new, hq, hplatform, hthreads, hworkers, hlength, hrunning⟩ := ih (h.move (.start p))
    refine ⟨q, .started p.platform :: new, hq, hplatform, ?_, ?_, congrArg Nat.succ hlength, ?_⟩
    · rw [hthreads, Pool.start, List.append_assoc]
      rfl
    · rw [List.map_cons, hworkers]
      rfl
    · exact List.forall_mem_cons.mpr ⟨rfl, hrunning⟩

theorem Reached.stopAll {p : Pool} (h : Reached p) {done threads : List Thread}
    (hp : p.threads = done ++ threads) (hr : ∀ t ∈ threads, t.running = true) :
    ∃ q stopped, Reached q ∧ q.threads = done ++ stopped ∧
      stopped.map (·.worker) = (Worker.stopAll (threads.map (·.worker)) p.platform).1 ∧
      stopped.length = threads.length ∧ ∀ t ∈ stopped, t.running = false := by
  induction threads generalizing p done with
  | nil => exact ⟨p, [], h, hp, rfl, rfl, List.forall_mem_nil _⟩
  | cons t threads ih =>
    obtain ⟨ht, hrest⟩ := List.forall_mem_cons.mp hr
    have hq := h.move (Move.stop hp ht)
    obtain ⟨q, stopped, hreached, hthreads, hworkers, hlength, hstopped⟩ :=
      ih hq (List.append_assoc done [t.stop p.platform] threads).symm hrest
    refine ⟨q, t.stop p.platform :: stopped, hreached, ?_, ?_, congrArg Nat.succ hlength, ?_⟩
    · rw [hthreads, List.append_assoc]
      rfl
    · rw [List.map_cons, hworkers]
      rfl
    · exact List.forall_mem_cons.mpr ⟨rfl, hstopped⟩

theorem exists_reached_render (p : Platform) (workers : Nat) (documents : List String) :
    ∃ q, Reached q ∧ q.threads.map (·.worker) = (RuntimeReport.render p workers documents).workers ∧
      q.threads.length = workers ∧ ∀ t ∈ q.threads, t.running = false := by
  obtain ⟨q, threads, hq, hplatform, hthreads, hworkers, hlength, hrunning⟩ :=
    (Reached.empty p).startAll workers
  have hr : ∃ later, (RuntimeReport.render p workers documents).workers =
      (Worker.stopAll (Worker.startAll workers p).1 later).1 := by
    unfold RuntimeReport.render
    dsimp only
    split <;> exact ⟨_, rfl⟩
  obtain ⟨later, hr⟩ := hr
  obtain ⟨q, stopped, hreached, hstopped, hdone, hsame, hall⟩ :=
    (hq.move (.elsewhere q later)).stopAll hthreads hrunning
  refine ⟨q, hreached, ?_, ?_, ?_⟩
  · rw [hstopped, hr, ← hworkers]
    exact hdone
  · rw [hstopped]
    exact hsame.trans hlength
  · rw [hstopped]
    exact hall

end Pool

namespace RuntimeReport

theorem total_accounted {threads : List Thread} (h : ∀ t ∈ threads, t.Accounted)
    (hr : ∀ t ∈ threads, t.running = false) :
    total (·.left) (threads.map (·.worker)) = threads.length ∧
      total (·.joined) (threads.map (·.worker)) +
        ((threads.map (·.worker)).flatMap (·.warnings)).length = threads.length := by
  induction threads with
  | nil => exact ⟨rfl, rfl⟩
  | cons t threads ih =>
    obtain ⟨ht, hrest⟩ := List.forall_mem_cons.mp h
    obtain ⟨hstopped, hothers⟩ := List.forall_mem_cons.mp hr
    obtain ⟨hleft, hjoined⟩ := ih hrest hothers
    have hl := ht.left
    have hj := ht.joined
    have hw := ht.warned
    simp only [hstopped, Bool.false_eq_true, if_false] at hl
    simp only [List.map_cons, total_cons, List.flatMap_cons, List.length_append, List.length_cons]
    constructor
    · omega
    · split at hj <;> simp_all <;> omega

/-- Each worker leaves once, and either joins or warns. So no thread leaves without having joined
if and only if nothing is warned about. -/
theorem left_eq_joined_iff (p : Platform) (workers : Nat) (documents : List String) :
    (render p workers documents).left = workers ∧
    (render p workers documents).joined + (render p workers documents).warnings.length = workers ∧
    ((render p workers documents).left = (render p workers documents).joined ↔
      (render p workers documents).warnings = []) := by
  obtain ⟨q, hq, hworkers, hlength, hstopped⟩ := Pool.exists_reached_render p workers documents
  obtain ⟨hleft, hjoined⟩ := total_accounted hq.accounted hstopped
  rw [hworkers, hlength] at hleft hjoined
  have hsum : (render p workers documents).joined +
      (render p workers documents).warnings.length = workers := by
    rw [warnings, List.length_mergeSort]
    exact hjoined
  refine ⟨hleft, hsum, ?_⟩
  rw [← List.length_eq_zero_iff]
  change (render p workers documents).left = workers at hleft
  omega

end RuntimeReport

end SpeechBridge

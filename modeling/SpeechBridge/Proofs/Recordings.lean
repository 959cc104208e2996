import SpeechBridge.Proofs.Fates
import SpeechBridge.Engine.Recorder

/-!
# Many utterances at once

Utterances of one engine are in progress side by side, and their jobs are run or dropped in any
order. Main statement: every sink ends once, with the fate of its own utterance.
-/
namespace SpeechBridge

def Sink.number : Sink → Nat
  | full n | closure n => n

def RecorderEvent.sink? {E : Type} : RecorderEvent E → Option Nat
  | delivered n _ _ | failed n _ | dropped n | closure n _ _ => some n
  | engine _ | warn _ => none

/-- A call to speak: its sink, what the engine makes of the document, and the answer. -/
structure Order (Stream : Type) where
  sink : Sink
  outcome : Except Error (List (Except Error Stream))
  reply : Answer

namespace Order

variable {Stream Audio : Type}

/-- What speaking answers: the error of a submission that is rejected. -/
def answer (order : Order Stream) : Answer :=
  match order.outcome with
  | .error e => .refused e
  | .ok _ => .returned .done

/-- The fate of the sink, given the sinks whose continuation was dropped. -/
def fate (a : Answers Stream Audio) (dropped : List Nat) (order : Order Stream) : Fate :=
  match order.outcome with
  | .error _ => .dropped
  | .ok reports => if order.sink.number ∈ dropped then .dropped else a.fate reports

theorem fate_of_mem {a : Answers Stream Audio} {dropped : List Nat} {order : Order Stream}
    (h : order.sink.number ∈ dropped) : order.fate a dropped = .dropped := by
  unfold fate
  split
  · rfl
  · exact if_pos h

end Order

/-- A recorder with what has been ordered of it and shown so far. -/
structure Recording (W E Stream Audio : Type) where
  recorder : Recorder W Stream Audio
  orders : List (Order Stream)
  dropped : List Nat
  events : List (RecorderEvent E)

namespace Recording

variable {W E Stream Audio : Type}

def jobs (r : Recording W E Stream Audio) (n : Nat) : List (Job Stream Audio Sink) :=
  r.recorder.studio.parked.filter (·.sink.number = n)

def about (r : Recording W E Stream Audio) (n : Nat) : List (RecorderEvent E) :=
  r.events.filter (·.sink? = some n)

def start (w : W) : Recording W E Stream Audio := ⟨.ofWorld w, [], [], []⟩

variable [Renderer W E Stream Audio]

def speak (r : Recording W E Stream Audio) (document : String) (sink : Nat → Sink) :
    Recording W E Stream Audio :=
  let synthesis : Act W E (Operation Stream) := Renderer.synthesize document
  let (recorder, shown, reply) := r.recorder.speak document sink
  { r with
    recorder
    orders := r.orders ++ [⟨sink r.recorder.next,
      (synthesis.run r.recorder.studio.world).result.map Operation.reports, reply⟩]
    events := r.events ++ shown }

def complete (r : Recording W E Stream Audio) (index : Nat) : Recording W E Stream Audio :=
  let (recorder, shown, _) := r.recorder.complete index
  { r with recorder, events := r.events ++ shown }

def finish (r : Recording W E Stream Audio) (index : Nat) (job : Job Stream Audio Sink) :
    Recording W E Stream Audio :=
  let studio := r.recorder.studio
  let (studio, shown) := { studio with parked := studio.parked.eraseIdx index }.resume job
  { r with
    recorder := ⟨studio, r.recorder.next⟩
    events := r.events ++ shown.flatMap Happening.recorderEvents }

def drop (r : Recording W E Stream Audio) (index : Nat) : Recording W E Stream Audio :=
  match r.recorder.studio.parked[index]? with
  | none => r
  | some job => { r.finish index job.abandoned with dropped := r.dropped ++ [job.sink.number] }

def act (r : Recording W E Stream Audio) (call : Act W E Value) : Recording W E Stream Audio :=
  let (recorder, shown, _) := r.recorder.act call
  { r with recorder, events := r.events ++ shown }

/-- Calls to speak, jobs that are run or dropped in any order, and other calls to the engine. -/
inductive Move : Recording W E Stream Audio → Recording W E Stream Audio → Prop where
  | speak (r) (document) {sink} : (∀ n, (sink n).number = n) → Move r (r.speak document sink)
  | complete (r) (index) : Move r (r.complete index)
  | drop (r) (index) : Move r (r.drop index)
  | act (r) (call) : Move r (r.act call)

inductive Reached : Recording W E Stream Audio → Prop where
  | start (w) : Reached (start w)
  | move {r t} : Reached r → Move r t → Reached t

end Recording

theorem Sink.about_ending {E : Type} (sink : Sink) (fate : Fate) (n : Nat) :
    (sink.ending fate : List (RecorderEvent E)).filter (·.sink? = some n) =
      if sink.number = n then sink.ending fate else [] := by
  by_cases h : sink.number = n
  · subst h
    cases sink <;> cases fate <;> simp [ending, RecorderEvent.sink?, number]
  · rw [if_neg h]
    cases sink <;> cases fate <;> simp_all [ending, RecorderEvent.sink?, number]

namespace Progress

variable {E Stream Audio : Type}

def jobs (p : Progress Stream Audio Sink) (n : Nat) : List (Job Stream Audio Sink) :=
  match p with
  | .waiting job => if job.sink.number = n then [job] else []
  | .ended _ _ => []

def about (p : Progress Stream Audio Sink) (n : Nat) : List (RecorderEvent E) :=
  match p with
  | .waiting _ => []
  | .ended sink fate => if sink.number = n then sink.ending fate else []

theorem jobs_of_ne {p : Progress Stream Audio Sink} {n : Nat} (h : p.sink.number ≠ n) :
    p.jobs n = [] := by
  cases p with
  | waiting job => exact if_neg h
  | ended sink fate => rfl

theorem about_of_ne {p : Progress Stream Audio Sink} {n : Nat} (h : p.sink.number ≠ n) :
    (p.about n : List (RecorderEvent E)) = [] := by
  cases p with
  | waiting job => rfl
  | ended sink fate => exact if_neg h

end Progress

namespace Studio

variable {W E Stream Audio : Type}

theorem place_projections (s : Studio W Stream Audio Sink) (w : W)
    (p : Progress Stream Audio Sink) (n : Nat) :
    (s.place w p : _ × List (Happening E Sink)).1.parked.filter (·.sink.number = n) =
        s.parked.filter (·.sink.number = n) ++ p.jobs n ∧
      ((s.place w p).2.flatMap (Happening.recorderEvents (E := E))).filter (·.sink? = some n) =
        p.about n := by
  cases p with
  | waiting job =>
    refine ⟨?_, rfl⟩
    simp only [place, List.filter_append, Progress.jobs, List.filter_cons, List.filter_nil,
      decide_eq_true_eq]
  | ended sink fate =>
    refine ⟨?_, ?_⟩
    · simp [place, Progress.jobs]
    · have hw : (fate.warning?.toList.map (RecorderEvent.warn (E := E))).filter
          (·.sink? = some n) = [] := by
        simp [RecorderEvent.sink?]
      simp only [place, List.flatMap_cons, List.flatMap_nil, Happening.recorderEvents,
        List.append_nil, List.filter_append, hw, List.nil_append, Progress.about]
      exact sink.about_ending fate n

end Studio

namespace Recording

variable {W E Stream Audio : Type} {a : Answers Stream Audio}

/-- An utterance waits in one job with nothing shown of its sink, or its sink has ended. -/
inductive Stands (a : Answers Stream Audio) (r : Recording W E Stream Audio)
    (order : Order Stream) : Prop where
  | waiting {job} : (∃ reports, order.outcome = .ok reports) → job.sink = order.sink →
      a.jobFate job = order.fate a r.dropped → r.jobs order.sink.number = [job] →
      r.about order.sink.number = [] → Stands a r order
  | ended : r.jobs order.sink.number = [] →
      r.about order.sink.number = order.sink.ending (order.fate a r.dropped) → Stands a r order

/-- Every order stands as its own utterance does, and nothing is known of other sinks. -/
structure Accounted (a : Answers Stream Audio) (r : Recording W E Stream Audio) : Prop where
  next : r.recorder.next = r.orders.length + 1
  numbers : r.orders.map (·.sink.number) = List.range' 1 r.orders.length
  answers : ∀ order ∈ r.orders, order.reply = order.answer
  stands : ∀ order ∈ r.orders, Stands a r order
  strangers : ∀ n ∉ r.orders.map (·.sink.number),
    r.jobs n = [] ∧ r.about n = [] ∧ n ∉ r.dropped

theorem Stands.of_unchanged {r t : Recording W E Stream Audio} {order : Order Stream}
    (h : Stands a r order) (hj : t.jobs order.sink.number = r.jobs order.sink.number)
    (he : t.about order.sink.number = r.about order.sink.number)
    (hf : order.fate a t.dropped = order.fate a r.dropped) : Stands a t order := by
  cases h with
  | waiting hr hs hw hjobs habout =>
    exact .waiting hr hs (hw.trans hf.symm) (hj.trans hjobs) (he.trans habout)
  | ended hjobs habout =>
    refine .ended (hj.trans hjobs) ?_
    rw [he, hf]
    exact habout

theorem stands_of_progress {t : Recording W E Stream Audio} {order : Order Stream}
    {p : Progress Stream Audio Sink}
    (hr : ∀ job, p = .waiting job → ∃ reports, order.outcome = .ok reports)
    (hs : p.sink = order.sink) (hf : a.progressFate p = order.fate a t.dropped)
    (hj : t.jobs order.sink.number = p.jobs order.sink.number)
    (he : t.about order.sink.number = p.about order.sink.number) : Stands a t order := by
  cases p with
  | waiting job =>
    refine .waiting (hr job rfl) hs hf ?_ he
    rw [hj]
    exact if_pos (congrArg Sink.number hs)
  | ended sink fate =>
    obtain rfl : sink = order.sink := hs
    refine .ended hj ?_
    rw [he, ← hf]
    exact if_pos rfl

theorem Accounted.about_eq {r : Recording W E Stream Audio} (h : Accounted a r)
    (hp : r.recorder.studio.parked = []) {order : Order Stream} (ho : order ∈ r.orders) :
    r.about order.sink.number = order.sink.ending (order.fate a r.dropped) := by
  cases h.stands order ho with
  | waiting _ _ _ hjobs _ => simp [jobs, hp] at hjobs
  | ended _ habout => exact habout

theorem Accounted.act {r : Recording W E Stream Audio} (h : Accounted a r) (call : Act W E Value) :
    Accounted a (r.act call) := by
  have he : ∀ n, (r.act call).about n = r.about n := by
    intro n
    have hs : ((call.run r.recorder.studio.world).events.map RecorderEvent.engine).filter
        (·.sink? = some n) = [] := by
      simp [RecorderEvent.sink?]
    simp only [about, Recording.act, Recorder.act, List.filter_append, hs, List.append_nil]
  refine ⟨h.next, h.numbers, h.answers, ?_, ?_⟩
  · intro order ho
    exact (h.stands order ho).of_unchanged rfl (he _) rfl
  · intro n hn
    obtain ⟨hj, habout, hd⟩ := h.strangers n hn
    exact ⟨hj, (he n).trans habout, hd⟩

theorem about_engine {E : Type} (events : List E) (n : Nat) :
    ((events.map (Happening.engine (S := Sink))).flatMap Happening.recorderEvents).filter
      (·.sink? = some n) = [] := by
  induction events with
  | nil => rfl
  | cons e es ih => exact ih

theorem exists_split_of_getElem? {α : Type} {l : List α} {i : Nat} {x : α} (h : l[i]? = some x) :
    ∃ before after, l = before ++ x :: after ∧ l.eraseIdx i = before ++ after := by
  obtain ⟨hi, hx⟩ := List.getElem?_eq_some_iff.mp h
  refine ⟨l.take i, l.drop (i + 1), ?_, List.eraseIdx_eq_take_drop_succ l i⟩
  rw [← hx, List.getElem_cons_drop, List.take_append_drop]

theorem mem_jobs {r : Recording W E Stream Audio} {index : Nat} {job : Job Stream Audio Sink}
    (h : r.recorder.studio.parked[index]? = some job) : job ∈ r.jobs job.sink.number :=
  List.mem_filter.mpr ⟨List.mem_of_getElem? h, decide_eq_true rfl⟩

variable [Renderer W E Stream Audio]

theorem finish_projections (r : Recording W E Stream Audio) (index : Nat)
    (job : Job Stream Audio Sink) (n : Nat) :
    (r.finish index job).jobs n =
        (r.recorder.studio.parked.eraseIdx index).filter (·.sink.number = n) ++
          (Pipeline.resume r.recorder.studio.world job).progress.jobs n ∧
      (r.finish index job).about n =
        r.about n ++ (Pipeline.resume r.recorder.studio.world job).progress.about n := by
  have hp := Studio.place_projections (E := E)
    { r.recorder.studio with parked := r.recorder.studio.parked.eraseIdx index }
    (Pipeline.resume r.recorder.studio.world job).world
    (Pipeline.resume r.recorder.studio.world job).progress n
  refine ⟨hp.1, ?_⟩
  simp only [finish, about, Studio.resume, List.filter_append, List.flatMap_append, about_engine,
    List.nil_append]
  exact congrArg _ hp.2

theorem finish_of_ne (ha : Renderer.Steady W a) {r : Recording W E Stream Audio} {index n : Nat}
    {job next : Job Stream Audio Sink} (hi : r.recorder.studio.parked[index]? = some job)
    (hs : next.sink = job.sink) (hn : job.sink.number ≠ n) :
    (r.finish index next).jobs n = r.jobs n ∧ (r.finish index next).about n = r.about n := by
  obtain ⟨hj, he⟩ := r.finish_projections index next n
  have hp : (Pipeline.resume (E := E) r.recorder.studio.world next).progress.sink.number ≠ n := by
    rw [(Pipeline.leadsTo_resume ha next r.recorder.studio.world).1, hs]
    exact hn
  rw [hj, he, Progress.jobs_of_ne hp, Progress.about_of_ne hp, List.append_nil, List.append_nil]
  obtain ⟨before, after, hl, hr⟩ := exists_split_of_getElem? hi
  refine ⟨?_, rfl⟩
  rw [jobs, hr, hl, List.filter_append, List.filter_append, List.filter_cons_of_neg (by simpa)]

theorem finish_of_waiting {r : Recording W E Stream Audio} {index : Nat}
    {job next : Job Stream Audio Sink} (hi : r.recorder.studio.parked[index]? = some job)
    (hw : r.jobs job.sink.number = [job]) :
    (r.finish index next).jobs job.sink.number =
      (Pipeline.resume (E := E) r.recorder.studio.world next).progress.jobs job.sink.number := by
  obtain ⟨before, after, hl, hr⟩ := exists_split_of_getElem? hi
  have hb : (before ++ after).filter (·.sink.number = job.sink.number) = [] := by
    rw [jobs, hl, List.filter_append, List.filter_cons_of_pos (by simp)] at hw
    have := congrArg List.length hw
    simp only [List.length_append, List.length_cons, List.length_nil] at this
    rw [List.filter_append]
    apply List.eq_nil_of_length_eq_zero
    rw [List.length_append]
    omega
  rw [(r.finish_projections index next _).1, hr, hb, List.nil_append]

theorem Accounted.finish (ha : Renderer.Steady W a) {r : Recording W E Stream Audio}
    (h : Accounted a r) {index : Nat} {job next : Job Stream Audio Sink} {dropped : List Nat}
    (hi : r.recorder.studio.parked[index]? = some job) (hs : next.sink = job.sink)
    (hd : ∀ n ≠ job.sink.number, n ∈ dropped ↔ n ∈ r.dropped)
    (hf : ∀ order : Order Stream, order.sink = job.sink →
      a.jobFate job = order.fate a r.dropped → a.jobFate next = order.fate a dropped) :
    Accounted a { r.finish index next with dropped } := by
  have hmem := mem_jobs hi
  refine ⟨h.next, h.numbers, h.answers, ?_, ?_⟩
  · intro order ho
    by_cases hn : job.sink.number = order.sink.number
    · cases h.stands order ho with
      | @waiting job' hr hsink hw hjobs habout =>
        rw [hn, hjobs, List.mem_singleton] at hmem
        subst hmem
        rw [← hsink] at hjobs habout
        obtain ⟨hps, hpf⟩ := Pipeline.leadsTo_resume ha next r.recorder.studio.world
        refine stands_of_progress (fun _ _ => hr) (hps.trans (hs.trans hsink)) ?_ ?_ ?_
        · rw [hpf]
          exact hf order hsink.symm hw
        · rw [← hsink]
          exact finish_of_waiting hi hjobs
        · rw [← hsink]
          exact (r.finish_projections index next _).2.trans (by rw [habout, List.nil_append])
      | ended hjobs habout =>
        rw [hn, hjobs] at hmem
        cases hmem
    · obtain ⟨hj, he⟩ := finish_of_ne ha hi hs hn
      refine (h.stands order ho).of_unchanged hj he ?_
      simp only [Order.fate, hd _ (Ne.symm hn)]
  · intro n hn
    obtain ⟨hjobs, habout, hdropped⟩ := h.strangers n hn
    have hne : job.sink.number ≠ n := by
      rintro rfl
      rw [hjobs] at hmem
      cases hmem
    obtain ⟨hj, he⟩ := finish_of_ne ha hi hs hne
    exact ⟨hj.trans hjobs, he.trans habout, fun hm => hdropped ((hd n hne.symm).mp hm)⟩

theorem Accounted.complete (ha : Renderer.Steady W a) {r : Recording W E Stream Audio}
    (h : Accounted a r) (index : Nat) : Accounted a (r.complete index) := by
  cases hi : r.recorder.studio.parked[index]? with
  | none =>
    have hr : r.complete index = r := by
      simp [Recording.complete, Recorder.complete, Studio.complete, hi]
    rw [hr]
    exact h
  | some job =>
    have hr : r.complete index = r.finish index job := by
      simp [Recording.complete, Recorder.complete, Studio.complete, hi, Recording.finish]
    rw [hr]
    exact h.finish ha hi rfl (fun _ _ => Iff.rfl) fun _ _ hw => hw

theorem Accounted.drop (ha : Renderer.Steady W a) {r : Recording W E Stream Audio}
    (h : Accounted a r) (index : Nat) : Accounted a (r.drop index) := by
  unfold Recording.drop
  split
  · exact h
  next job hi =>
    refine h.finish ha hi job.sink_abandoned ?_ ?_
    · intro n hn
      simp [hn]
    · intro order ho _
      rw [Job.jobFate_abandoned, Order.fate_of_mem (by simp [ho])]

theorem exists_speak_projections (ha : Renderer.Steady W a) (r : Recording W E Stream Audio)
    (document : String) (sink : Nat → Sink) :
    ∃ (order : Order Stream) (p : Progress Stream Audio Sink),
      (r.speak document sink).orders = r.orders ++ [order] ∧
      order.sink = sink r.recorder.next ∧ order.reply = order.answer ∧
      (∀ job, p = .waiting job → ∃ reports, order.outcome = .ok reports) ∧
      p.sink = order.sink ∧
      (∀ dropped, order.sink.number ∉ dropped → a.progressFate p = order.fate a dropped) ∧
      ∀ n, (r.speak document sink).jobs n = r.jobs n ++ p.jobs n ∧
        (r.speak document sink).about n = r.about n ++ p.about n := by
  cases hr : ((Renderer.synthesize document : Act W E (Operation Stream)).run
      r.recorder.studio.world).result with
  | error e =>
    have hsub := Pipeline.result_submit_of_error (S := Sink) (sink r.recorder.next) hr
    refine ⟨⟨sink r.recorder.next, .error e, .refused e⟩,
      .ended (sink r.recorder.next) .dropped, ?_, rfl, rfl, by simp, rfl, fun _ _ => rfl, ?_⟩
    · simp [Recording.speak, Recorder.speak, Studio.submit, hr, hsub, Except.map]
    · intro n
      constructor
      · simp [Recording.speak, Recorder.speak, Studio.submit, hsub, jobs, Progress.jobs]
      · simp only [Recording.speak, Recorder.speak, Studio.submit, hsub, about,
          List.filter_append, about_engine, Sink.about_ending, List.nil_append]
        rfl
  | ok synthesis =>
    obtain ⟨p, hsub, hps, hpf⟩ :=
      Pipeline.result_submit_of_ok ha (S := Sink) (sink r.recorder.next) hr
    refine ⟨⟨sink r.recorder.next, .ok synthesis.reports, .returned .done⟩, p, ?_, rfl, rfl,
      fun _ _ => ⟨_, rfl⟩, hps, ?_, ?_⟩
    · simp [Recording.speak, Recorder.speak, Studio.submit, hr, hsub, Except.map]
    · intro dropped hn
      rw [hpf]
      exact (if_neg hn).symm
    · intro n
      have hp := Studio.place_projections (E := E) r.recorder.studio
        ((Pipeline.submit (E := E) document (sink r.recorder.next)).run
          r.recorder.studio.world).world p n
      constructor
      · simp only [Recording.speak, Recorder.speak, Studio.submit, hsub]
        exact hp.1
      · simp only [Recording.speak, Recorder.speak, Studio.submit, hsub, about,
          List.filter_append, List.flatMap_append, about_engine, List.nil_append]
        exact congrArg _ hp.2

theorem Accounted.speak (ha : Renderer.Steady W a) {r : Recording W E Stream Audio}
    (h : Accounted a r) (document : String) {sink : Nat → Sink}
    (hsink : ∀ n, (sink n).number = n) : Accounted a (r.speak document sink) := by
  obtain ⟨order, p, hord, hos, hans, hwait, hps, hpf, hproj⟩ :=
    exists_speak_projections ha r document sink
  have hnext : (r.speak document sink).recorder.next = r.recorder.next + 1 := by
    simp only [Recording.speak, Recorder.speak]
    split <;> rfl
  have hnum : order.sink.number = r.recorder.next := by rw [hos, hsink]
  have hfresh : r.recorder.next ∉ r.orders.map (·.sink.number) := by
    rw [h.numbers, h.next, List.mem_range'_1]
    omega
  obtain ⟨hj, he, hd⟩ := h.strangers r.recorder.next hfresh
  have hother : ∀ n ≠ r.recorder.next, (r.speak document sink).jobs n = r.jobs n ∧
      (r.speak document sink).about n = r.about n := by
    intro n hn
    have hp : p.sink.number ≠ n := by rw [hps, hnum]; exact hn.symm
    rw [(hproj n).1, (hproj n).2, Progress.jobs_of_ne hp, Progress.about_of_ne hp,
      List.append_nil, List.append_nil]
    exact ⟨rfl, rfl⟩
  constructor
  · rw [hnext, hord, h.next, List.length_append, List.length_singleton]
  · rw [hord, List.map_append, h.numbers, List.length_append, List.map_singleton, hnum, h.next,
      List.length_singleton, List.range'_1_concat, Nat.add_comm 1]
  · rw [hord]
    intro o ho
    rcases List.mem_append.mp ho with ho | ho
    · exact h.answers o ho
    · rw [List.mem_singleton.mp ho]
      exact hans
  · rw [hord]
    intro o ho
    rcases List.mem_append.mp ho with ho | ho
    · have hn : o.sink.number ≠ r.recorder.next := fun heq =>
        hfresh (heq ▸ List.mem_map_of_mem (f := (·.sink.number)) ho)
      obtain ⟨hj, he⟩ := hother _ hn
      exact (h.stands o ho).of_unchanged hj he rfl
    · rw [List.mem_singleton.mp ho]
      refine stands_of_progress hwait hps (hpf r.dropped (by rwa [hnum])) ?_ ?_
      · rw [(hproj _).1, hnum, hj, List.nil_append]
      · rw [(hproj _).2, hnum, he, List.nil_append]
  · rw [hord]
    intro n hn
    rw [List.map_append, List.mem_append, not_or, List.map_singleton, List.mem_singleton,
      hnum] at hn
    obtain ⟨hjn, hen⟩ := hother n hn.2
    obtain ⟨hj, he, hd⟩ := h.strangers n hn.1
    exact ⟨hjn.trans hj, hen.trans he, hd⟩

theorem Move.accounted (ha : Renderer.Steady W a) {r t : Recording W E Stream Audio}
    (hm : Move r t) (h : Accounted a r) : Accounted a t := by
  cases hm with
  | speak document hsink => exact h.speak ha document hsink
  | complete index => exact h.complete ha index
  | drop index => exact h.drop ha index
  | act call => exact h.act call

theorem Reached.accounted (ha : Renderer.Steady W a) {r : Recording W E Stream Audio}
    (hr : Reached r) : Accounted a r := by
  induction hr with
  | start w => exact ⟨rfl, rfl, by simp [Recording.start], by simp [Recording.start],
      fun n _ => ⟨rfl, rfl, List.not_mem_nil⟩⟩
  | move _ hm ih => exact hm.accounted ha ih

def completeAll (r : Recording W E Stream Audio) : Recording W E Stream Audio :=
  let (recorder, shown, _) := r.recorder.completeAll
  { r with recorder, events := r.events ++ shown }

theorem Reached.drain {r : Recording W E Stream Audio} (hr : Reached r) (n : Nat) :
    Reached { r with
      recorder := ⟨(Studio.drain (E := E) n r.recorder.studio).studio, r.recorder.next⟩
      events := r.events ++
        (Studio.drain n r.recorder.studio).shown.flatMap Happening.recorderEvents } := by
  induction n generalizing r with
  | zero => simpa [Studio.drain] using hr
  | succ n ih =>
    cases hp : r.recorder.studio.parked with
    | nil => simpa [Studio.drain, hp] using hr
    | cons job rest =>
      have := ih (hr.move (.complete r 0))
      simpa [Studio.drain, hp, Recording.complete, Recorder.complete, Studio.complete] using this

/-- Running the oldest job until none is left is a sequence of moves. -/
theorem Reached.completeAll {r : Recording W E Stream Audio} (hr : Reached r) :
    Reached r.completeAll :=
  hr.drain r.recorder.studio.work

/-- Every sink ends once, with the fate of its own utterance and after its last job; so it ends
in the same way in whatever order all jobs are run. -/
theorem every_sink_has_its_own_fate (ha : Renderer.Steady W a) {r : Recording W E Stream Audio}
    (hr : Reached r) :
    r.orders.map (·.sink.number) = List.range' 1 r.orders.length ∧
    (∀ order ∈ r.orders,
      order.reply = order.answer ∧
      ((r.jobs order.sink.number = [] ∧
          r.about order.sink.number = order.sink.ending (order.fate a r.dropped)) ∨
        ((∃ reports, order.outcome = .ok reports) ∧
          (∃ job, r.jobs order.sink.number = [job]) ∧
          r.about order.sink.number = [])) ∧
      ∀ reports, order.outcome = .ok reports →
        (order.fate a r.dropped = .dropped ↔
          order.sink.number ∈ r.dropped ∨ reports = [] ∨
            ∃ stream later markers, reports = .ok stream :: later ∧
              a.markers stream = .ok markers ∧ a.read stream = .ok [])) ∧
    (∀ n ∉ r.orders.map (·.sink.number), r.about n = []) ∧
    ∀ t : Recording W E Stream Audio, Reached t → t.orders = r.orders →
      (∀ n, n ∈ t.dropped ↔ n ∈ r.dropped) →
      r.recorder.studio.parked = [] → t.recorder.studio.parked = [] →
      ∀ n, t.about n = r.about n := by
  have h := hr.accounted ha
  refine ⟨h.numbers, ?_, fun n hn => (h.strangers n hn).2.1, ?_⟩
  · intro order ho
    refine ⟨h.answers order ho, ?_, fun reports hreports => ?_⟩
    · cases h.stands order ho with
      | waiting hreports _ _ hjobs habout => exact .inr ⟨hreports, ⟨_, hjobs⟩, habout⟩
      | ended hjobs habout => exact .inl ⟨hjobs, habout⟩
    · by_cases hd : order.sink.number ∈ r.dropped
      · simp [Order.fate_of_mem hd, hd]
      · simp only [Order.fate, hreports, hd, if_false, false_or]
        exact a.fate_eq_dropped_iff
  · intro t ht horders hdropped hpr hpt n
    have k := ht.accounted ha
    by_cases hn : n ∈ r.orders.map (·.sink.number)
    · obtain ⟨order, ho, rfl⟩ := List.mem_map.mp hn
      rw [h.about_eq hpr ho, k.about_eq hpt (horders ▸ ho)]
      simp only [Order.fate, hdropped]
    · rw [(h.strangers n hn).2.1, (k.strangers n (horders ▸ hn)).2.1]

end Recording

namespace ScriptedEngine

def answers : Answers Outcome Outcome where
  markers o :=
    match o.mishap with
    | some (.markersFail e) | some (.markersAndReadFail e) => .error e
    | _ => .ok o.markers
  read o :=
    match o.mishap with
    | some (.readRejected e) | some (.markersAndReadFail e) => .error e
    | _ => .ok (readReports o)
  bytes o :=
    match o.mishap with
    | some (.bytesFail e) => .error e
    | _ => .ok o.audio

theorem steady : Renderer.Steady ScriptedEngine answers := by
  constructor
  · rintro ⟨_, _, _ | mishap⟩ s
    · rfl
    · cases mishap <;> rfl
  · rintro ⟨_, _, _ | mishap⟩ ⟨mode, _, _, _, _⟩
    · cases mode <;> rfl
    · cases mode <;> cases mishap <;> rfl
  · rintro ⟨_, _, _ | mishap⟩ s
    · rfl
    · cases mishap <;> rfl

/-- Delivered, failing in the read, delivered, rejected. -/
def mixed : ScriptedEngine :=
  ⟨.manual, [⟨[1], [⟨"1", ⟨0⟩⟩], none⟩, ⟨[], [], some (.readFails .canceled)⟩, ⟨[3], [], none⟩,
    ⟨[], [], some (.rejected .missingResult)⟩], [], [], 0⟩

end ScriptedEngine

namespace Recording

abbrev OfScript := Recording ScriptedEngine EngineEvent Outcome Outcome

/-- The third utterance is dropped when it waits for its read. -/
def inOrder : OfScript :=
  ((((((((start ScriptedEngine.mixed).speak "a" .full).speak "b" .full).speak "c" .full).speak
    "d" .full).complete 0).complete 0).complete 0 |>.drop 2).completeAll

/-- The third utterance is dropped when it waits for its synthesis, and the second one is ahead. -/
def scrambled : OfScript :=
  ((((((start ScriptedEngine.mixed).speak "a" .full).speak "b" .full).complete 1).speak
    "c" .full).drop 2 |>.speak "d" .full).complete 1 |>.completeAll

theorem scrambled_jobs_end_alike :
    Reached inOrder ∧ Reached scrambled ∧
      scrambled.about 1 = [.delivered 1 [1] [⟨"1", ⟨0⟩⟩], .dropped 1] ∧
      scrambled.about 2 = [.failed 2 .canceled, .dropped 2] ∧
      scrambled.about 3 = [.dropped 3] ∧ scrambled.about 4 = [.dropped 4] ∧
      ∀ n, inOrder.about n = scrambled.about n := by
  have hi : Reached inOrder :=
    Reached.completeAll (((((((((Reached.start _).move (.speak _ _ fun _ => rfl)).move
      (.speak _ _ fun _ => rfl)).move (.speak _ _ fun _ => rfl)).move
      (.speak _ _ fun _ => rfl)).move (.complete _ 0)).move (.complete _ 0)).move
      (.complete _ 0)).move (.drop _ 2))
  have hs : Reached scrambled :=
    Reached.completeAll ((((((((Reached.start _).move (.speak _ _ fun _ => rfl)).move
      (.speak _ _ fun _ => rfl)).move (.complete _ 1)).move (.speak _ _ fun _ => rfl)).move
      (.drop _ 2)).move (.speak _ _ fun _ => rfl)).move (.complete _ 1))
  refine ⟨hi, hs, by decide, by decide, by decide, by decide, ?_⟩
  exact (every_sink_has_its_own_fate ScriptedEngine.steady hs).2.2.2 inOrder hi rfl
    (fun _ => by rfl) rfl rfl

end Recording

end SpeechBridge

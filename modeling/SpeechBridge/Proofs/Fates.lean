import SpeechBridge.Engine.Pipeline

/-!
# What becomes of an utterance

An utterance is decided by what its own operations answer: the first report of the synthesis, the
markers, the read, the first report of the read, and the bytes. Main statement: each stage leaves
it with its sink and on its way to its fate.
-/
namespace SpeechBridge

def Operation.reports {α : Type} : Operation α → List (Except Error α)
  | .atOnce reports | .parked reports => reports

/-- What the streams and the audio of an engine answer, whenever they are asked. -/
structure Answers (Stream Audio : Type) where
  markers : Stream → Except Error (List Marker)
  read : Stream → Except Error (List (Except Error Audio))
  bytes : Audio → Except Error (List UInt8)

/-- Streams and audio are values: what they answer does not depend on what else the engine does. -/
structure Renderer.Steady (W : Type) {E Stream Audio : Type} [Renderer W E Stream Audio]
    (a : Answers Stream Audio) : Prop where
  markers : ∀ (stream : Stream) (w : W),
    ((Renderer.markers stream : Act W E (List Marker)).run w).result = a.markers stream
  read : ∀ (stream : Stream) (w : W),
    ((Renderer.readToEnd stream : Act W E (Operation Audio)).run w).result.map Operation.reports =
      a.read stream
  bytes : ∀ (audio : Audio) (w : W),
    ((Renderer.bytes audio : Act W E (List UInt8)).run w).result = a.bytes audio

/-- A stage that may fail. Without an error, the utterance stops because it is dropped. -/
abbrev Stage := Except (Option Error)

namespace Stage

variable {α : Type}

def ofResult : Except Error α → Stage α
  | .ok a => .ok a
  | .error e => .error (some e)

theorem ofResult_bind {β : Type} (r : Except Error α) (next : α → Except Error β) :
    ofResult (r >>= next) = ofResult r >>= fun a => ofResult (next a) := by
  cases r <;> rfl

def ofReports : List (Except Error α) → Stage α
  | [] => .error none
  | report :: _ => ofResult report

def fate : Stage (List UInt8 × List Marker) → Fate
  | .ok (bytes, markers) => .delivered bytes markers
  | .error (some e) => .failed e
  | .error none => .dropped

end Stage

namespace Answers

variable {Stream Audio S : Type}

def ofRead (a : Answers Stream Audio) (markers : List Marker) (reports : List (Except Error Audio)) :
    Stage (List UInt8 × List Marker) := do
  let audio ← Stage.ofReports reports
  let bytes ← Stage.ofResult (a.bytes audio)
  return (bytes, markers)

def ofSynthesis (a : Answers Stream Audio) (reports : List (Except Error Stream)) :
    Stage (List UInt8 × List Marker) := do
  let stream ← Stage.ofReports reports
  let markers ← Stage.ofResult (a.markers stream)
  let read ← Stage.ofResult (a.read stream)
  a.ofRead markers read

def fate (a : Answers Stream Audio) (reports : List (Except Error Stream)) : Fate :=
  (a.ofSynthesis reports).fate

theorem fate_ofRead_eq_dropped_iff {a : Answers Stream Audio} {markers : List Marker}
    {reports : List (Except Error Audio)} :
    (a.ofRead markers reports).fate = .dropped ↔ reports = [] := by
  rcases reports with _ | ⟨_ | audio, later⟩
  · exact iff_of_true rfl rfl
  · exact iff_of_false Fate.noConfusion (List.cons_ne_nil _ _)
  · cases h : a.bytes audio <;>
      simp [ofRead, Stage.ofReports, Stage.ofResult, h, bind, Except.bind, pure, Except.pure,
        Stage.fate]

/-- An utterance is dropped exactly if one of its two operations reports nothing. -/
theorem fate_eq_dropped_iff {a : Answers Stream Audio} {reports : List (Except Error Stream)} :
    a.fate reports = .dropped ↔ reports = [] ∨
      ∃ stream later markers, reports = .ok stream :: later ∧
        a.markers stream = .ok markers ∧ a.read stream = .ok [] := by
  rcases reports with _ | ⟨e | stream, later⟩
  · exact iff_of_true rfl (.inl rfl)
  · simp [fate, ofSynthesis, Stage.ofReports, Stage.ofResult, bind, Except.bind, Stage.fate]
  · have hs : a.fate (.ok stream :: later) = (Stage.ofResult (a.markers stream) >>= fun markers =>
        Stage.ofResult (a.read stream) >>= fun read => a.ofRead markers read).fate := rfl
    rw [hs]
    cases hm : a.markers stream with
    | error e => simp [Stage.ofResult, bind, Except.bind, Stage.fate, hm]
    | ok markers =>
      cases hr : a.read stream with
      | error e => simp [Stage.ofResult, bind, Except.bind, Stage.fate, hr]
      | ok read =>
        refine fate_ofRead_eq_dropped_iff.trans ?_
        simp [hm, hr]

def jobFate (a : Answers Stream Audio) : Job Stream Audio S → Fate
  | .synthesis reports _ => a.fate reports
  | .read reports markers _ => (a.ofRead markers reports).fate

def progressFate (a : Answers Stream Audio) : Progress Stream Audio S → Fate
  | .waiting job => a.jobFate job
  | .ended _ fate => fate

end Answers

namespace Job

variable {Stream Audio S : Type}

def sink : Job Stream Audio S → S
  | .synthesis _ sink | .read _ _ sink => sink

def abandoned : Job Stream Audio S → Job Stream Audio S
  | .synthesis _ sink => .synthesis [] sink
  | .read _ markers sink => .read [] markers sink

@[simp] theorem sink_abandoned (job : Job Stream Audio S) : job.abandoned.sink = job.sink := by
  cases job <;> rfl

@[simp] theorem jobFate_abandoned (a : Answers Stream Audio) (job : Job Stream Audio S) :
    a.jobFate job.abandoned = .dropped := by
  cases job <;> rfl

end Job

def Progress.sink {Stream Audio S : Type} : Progress Stream Audio S → S
  | .waiting job => job.sink
  | .ended sink _ => sink

namespace Act

theorem result_bind {W E α β : Type} (act : Act W E α) (next : α → Act W E β) (w : W) :
    ((act >>= next).run w).result =
      (act.run w).result >>= fun a => ((next a).run (act.run w).world).result := by
  simp only [run, Bind.bind, Except.bind]
  split
  next h => rw [h]
  next h => rw [h]

end Act

namespace Pipeline

variable {W E Stream Audio S : Type} [Renderer W E Stream Audio] {a : Answers Stream Audio}

/-- An advance of the utterance with the sink, which stays on its way to the fate. -/
def LeadsTo (a : Answers Stream Audio) (sink : S) (fate : Fate)
    (advance : Advance W E Stream Audio S) : Prop :=
  advance.progress.sink = sink ∧ a.progressFate advance.progress = fate

theorem result_bytes (h : Renderer.Steady W a) (audio : Except Error Audio) (w : W) :
    ((do Renderer.bytes (← Act.ofExcept audio) : Act W E (List UInt8)).run w).result =
      audio >>= a.bytes := by
  rw [Act.result_bind]
  cases audio with
  | error e => rfl
  | ok audio => exact h.bytes audio w

theorem leadsTo_onAudio (h : Renderer.Steady W a) (sink : S) (markers : List Marker)
    (audio : Except Error Audio) (w : W) :
    LeadsTo a sink (a.ofRead markers [audio]).fate (onAudio sink markers audio w) := by
  have hf : a.ofRead markers [audio] =
      Stage.ofResult (audio >>= a.bytes) >>= fun bytes => pure (bytes, markers) := by
    cases audio <;> rfl
  rw [hf, ← result_bytes h audio w, onAudio]
  split
  next bytes hr =>
    rw [hr]
    exact ⟨rfl, rfl⟩
  next e hr =>
    rw [hr]
    exact ⟨rfl, rfl⟩

theorem leadsTo_onReadReports (h : Renderer.Steady W a) (sink : S) (markers : List Marker)
    (reports : List (Except Error Audio)) (w : W) :
    LeadsTo a sink (a.ofRead markers reports).fate (onReadReports sink markers reports w) := by
  rw [onReadReports, Slot.calls_full]
  cases reports with
  | nil => exact ⟨rfl, rfl⟩
  | cons report later => exact leadsTo_onAudio h sink markers report w

theorem result_collect (h : Renderer.Steady W a) (stream : Except Error Stream) (w : W) :
    ((collect stream : Act W E (List Marker × Operation Audio)).run w).result.map
        (fun c => (c.1, c.2.reports)) =
      (do
        let stream ← stream
        let markers ← a.markers stream
        let read ← a.read stream
        return (markers, read)) := by
  cases stream with
  | error e => rfl
  | ok stream =>
    have hr := h.read stream ((Renderer.markers stream : Act W E (List Marker)).run w).world
    simp only [collect, Act.result_bind, h.markers]
    change Except.map _ (a.markers stream >>= fun markers =>
      ((Renderer.readToEnd stream : Act W E (Operation Audio)).run
          ((Renderer.markers stream : Act W E (List Marker)).run w).world).result >>= fun read =>
        .ok (markers, read)) = (a.markers stream >>= fun markers =>
          a.read stream >>= fun read => .ok (markers, read))
    generalize ((Renderer.readToEnd stream : Act W E (Operation Audio)).run
      ((Renderer.markers stream : Act W E (List Marker)).run w).world).result = result at hr ⊢
    rw [← hr]
    cases a.markers stream <;> cases result <;> rfl

theorem leadsTo_onStream (h : Renderer.Steady W a) (sink : S) (stream : Except Error Stream)
    (w : W) : LeadsTo a sink (a.ofSynthesis [stream]).fate (onStream sink stream w) := by
  have hf : a.ofSynthesis [stream] =
      Stage.ofResult (do
        let stream ← stream
        let markers ← a.markers stream
        let read ← a.read stream
        return (markers, read)) >>= fun c => a.ofRead c.1 c.2 := by
    simp only [Stage.ofResult_bind, bind_assoc]
    rfl
  rw [hf, ← result_collect h stream w, onStream]
  dsimp only
  split
  next e hr =>
    rw [hr]
    exact ⟨rfl, rfl⟩
  next markers reports hr =>
    rw [hr]
    exact ⟨rfl, rfl⟩
  next markers reports hr =>
    rw [hr]
    exact leadsTo_onReadReports h sink markers reports _

theorem leadsTo_onSynthesisReports (h : Renderer.Steady W a) (sink : S)
    (reports : List (Except Error Stream)) (w : W) :
    LeadsTo a sink (a.fate reports) (onSynthesisReports sink reports w) := by
  rw [onSynthesisReports, Slot.calls_full]
  cases reports with
  | nil => exact ⟨rfl, rfl⟩
  | cons report later => exact leadsTo_onStream h sink report w

theorem leadsTo_resume (h : Renderer.Steady W a) (job : Job Stream Audio S) (w : W) :
    LeadsTo a job.sink (a.jobFate job) (resume w job) := by
  cases job with
  | synthesis reports sink => exact leadsTo_onSynthesisReports h sink reports w
  | read reports markers sink => exact leadsTo_onReadReports h sink markers reports w

theorem result_submit_of_error {document : String} {w : W} {e : Error} (sink : S)
    (h : ((Renderer.synthesize document : Act W E (Operation Stream)).run w).result = .error e) :
    ((submit document sink : Act W E (Progress Stream Audio S)).run w).result = .error e := by
  rw [submit, Act.result_bind, h]
  rfl

theorem result_submit_of_ok (ha : Renderer.Steady W a) {document : String} {w : W}
    {synthesis : Operation Stream} (sink : S)
    (h : ((Renderer.synthesize document : Act W E (Operation Stream)).run w).result =
      .ok synthesis) :
    ∃ progress, ((submit document sink : Act W E (Progress Stream Audio S)).run w).result =
      .ok progress ∧ progress.sink = sink ∧ a.progressFate progress = a.fate synthesis.reports := by
  rw [submit, Act.result_bind, h]
  cases synthesis with
  | parked reports => exact ⟨_, rfl, rfl, rfl⟩
  | atOnce reports =>
    have hl := leadsTo_onSynthesisReports ha sink reports
      ((Renderer.synthesize document : Act W E (Operation Stream)).run w).world
    exact ⟨_, rfl, hl⟩

end Pipeline

end SpeechBridge

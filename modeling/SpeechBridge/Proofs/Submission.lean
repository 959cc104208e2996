import SpeechBridge.Driver.Consumption

/-!
# What the engine is handed

Submitting is the only call that shows a document. Main statement: a submission shows its document
once, as accepted if it succeeds and as rejected if it fails.
-/
namespace SpeechBridge

namespace Act

variable {W E α β : Type}

def Shows (p : E → Prop) (act : Act W E α) : Prop := ∀ w, ∀ e ∈ (act.run w).events, p e

theorem run_bind_of_ok {act : Act W E α} {next : α → Act W E β} {w : W} {a : α}
    (h : (act.run w).result = .ok a) :
    (act >>= next).run w =
      ⟨((next a).run (act.run w).world).world,
        (act.run w).events ++ ((next a).run (act.run w).world).events,
        ((next a).run (act.run w).world).result⟩ := by
  simp only [run, Bind.bind] at h ⊢
  rw [h]

theorem run_bind_of_error {act : Act W E α} {next : α → Act W E β} {w : W} {e : Error}
    (h : (act.run w).result = .error e) :
    (act >>= next).run w = ⟨(act.run w).world, (act.run w).events, .error e⟩ := by
  simp only [run, Bind.bind] at h ⊢
  rw [h]

theorem shows_of_silent {p : E → Prop} {act : Act W E α} (h : ∀ w, (act.run w).events = []) :
    Shows p act := by
  intro w e he
  rw [h w] at he
  cases he

theorem shows_pure (p : E → Prop) (a : α) : Shows p (pure a : Act W E α) :=
  shows_of_silent fun _ => rfl

theorem shows_fail (p : E → Prop) (e : Error) : Shows p (fail e : Act W E α) :=
  shows_of_silent fun _ => rfl

theorem shows_ofExcept (p : E → Prop) (r : Except Error α) : Shows p (ofExcept r : Act W E α) :=
  shows_of_silent fun _ => rfl

theorem shows_get (p : E → Prop) : Shows p (get : Act W E W) := shows_of_silent fun _ => rfl

theorem shows_modify (p : E → Prop) (f : W → W) : Shows p (modify f : Act W E Unit) :=
  shows_of_silent fun _ => rfl

theorem shows_note {p : E → Prop} {e : E} (h : p e) : Shows p (note e : Act W E Unit) := by
  intro w e' he
  rw [show ((note e : Act W E Unit).run w).events = [e] from rfl, List.mem_singleton] at he
  exact he ▸ h

theorem Shows.bind {p : E → Prop} {act : Act W E α} {next : α → Act W E β} (h : Shows p act)
    (k : ∀ a, Shows p (next a)) : Shows p (act >>= next) := by
  intro w e he
  have hw := h w
  simp only [run, Bind.bind] at hw he
  split at he
  · exact hw e he
  next a _ =>
    rcases List.mem_append.mp he with he | he
    · exact hw e he
    · exact k a _ e he

end Act

structure Renderer.Reads (W : Type) {E Stream Audio : Type} [Renderer W E Stream Audio]
    (p : E → Prop) : Prop where
  markers : ∀ stream : Stream, Act.Shows p (Renderer.markers stream : Act W E (List Marker))
  readToEnd : ∀ stream : Stream, Act.Shows p (Renderer.readToEnd stream : Act W E (Operation Audio))
  bytes : ∀ audio : Audio, Act.Shows p (Renderer.bytes audio : Act W E (List UInt8))

/-- Documents can be seen in the events of an engine: synthesizing shows its own one, accepted or
not, and nothing else shows any. -/
structure Renderer.Announces (W : Type) {E Stream Audio : Type} [Renderer W E Stream Audio]
    (document? : E → Option String) : Prop where
  synthesize : ∀ document (w : W),
    ((Renderer.synthesize document : Act W E (Operation Stream)).run w).events.filterMap document? =
      [document]
  markers : ∀ stream : Stream, Act.Shows (fun e => document? e = none)
    (Renderer.markers stream : Act W E (List Marker))
  readToEnd : ∀ stream : Stream, Act.Shows (fun e => document? e = none)
    (Renderer.readToEnd stream : Act W E (Operation Audio))
  bytes : ∀ audio : Audio, Act.Shows (fun e => document? e = none)
    (Renderer.bytes audio : Act W E (List UInt8))

namespace Pipeline

variable {W E Stream Audio S : Type} [Renderer W E Stream Audio] {p : E → Prop}

theorem shows_onAudio (h : Renderer.Reads W p) (sink : S) (markers : List Marker)
    (audio : Except Error Audio) (w : W) :
    ∀ e ∈ (onAudio sink markers audio w : Advance W E Stream Audio S).events, p e := by
  have hb : Act.Shows p (do Renderer.bytes (← Act.ofExcept audio) : Act W E (List UInt8)) :=
    (Act.shows_ofExcept _ _).bind h.bytes
  unfold onAudio
  dsimp only
  split
  · exact hb w
  · exact hb w

theorem shows_onReadReports (h : Renderer.Reads W p) (sink : S) (markers : List Marker)
    (reports : List (Except Error Audio)) (w : W) :
    ∀ e ∈ (onReadReports sink markers reports w : Advance W E Stream Audio S).events, p e := by
  rw [onReadReports]
  split
  · intro e he
    cases he
  · exact shows_onAudio h _ _ _ _

theorem shows_onStream (h : Renderer.Reads W p) (sink : S) (stream : Except Error Stream) (w : W) :
    ∀ e ∈ (onStream sink stream w : Advance W E Stream Audio S).events, p e := by
  have hc : Act.Shows p (collect stream : Act W E (List Marker × Operation Audio)) :=
    (Act.shows_ofExcept _ _).bind fun stream => (h.markers stream).bind fun _ =>
      (h.readToEnd stream).bind fun _ => Act.shows_pure _ _
  rw [onStream]
  dsimp only
  split
  · exact hc w
  · exact hc w
  · intro e he
    rcases List.mem_append.mp he with he | he
    · exact hc w e he
    · exact shows_onReadReports h _ _ _ _ e he

theorem shows_onSynthesisReports (h : Renderer.Reads W p) (sink : S)
    (reports : List (Except Error Stream)) (w : W) :
    ∀ e ∈ (onSynthesisReports sink reports w : Advance W E Stream Audio S).events, p e := by
  rw [onSynthesisReports]
  split
  · intro e he
    cases he
  · exact shows_onStream h _ _ _

theorem shows_resume (h : Renderer.Reads W p) (job : Job Stream Audio S) (w : W) :
    ∀ e ∈ (resume w job : Advance W E Stream Audio S).events, p e := by
  cases job with
  | synthesis reports sink => exact shows_onSynthesisReports h sink reports w
  | read reports markers sink => exact shows_onReadReports h sink markers reports w

theorem shows_await (h : Renderer.Reads W p) (sink : S) (synthesis : Operation Stream) :
    Act.Shows p (await sink synthesis : Act W E (Progress Stream Audio S)) := by
  cases synthesis with
  | parked reports => exact Act.shows_of_silent fun _ => rfl
  | atOnce reports => exact shows_onSynthesisReports h sink reports

variable {document? : E → Option String}

def Shy (document? : E → Option String) (advance : Advance W E Stream Audio S) : Prop :=
  ∀ e ∈ advance.events, document? e = none

theorem shy_resume (h : Renderer.Announces W document?) (job : Job Stream Audio S) (w : W) :
    Shy document? (resume w job) :=
  shows_resume ⟨h.markers, h.readToEnd, h.bytes⟩ job w

/-- Submitting shows its document and no other one. -/
theorem documents_submit (h : Renderer.Announces W document?) (document : String) (sink : S)
    (w : W) :
    ((submit document sink : Act W E (Progress Stream Audio S)).run w).events.filterMap
      document? = [document] := by
  rw [← h.synthesize document w, submit]
  cases hr : ((Renderer.synthesize document : Act W E (Operation Stream)).run w).result with
  | error e => rw [Act.run_bind_of_error hr]
  | ok synthesis =>
    rw [Act.run_bind_of_ok hr, List.filterMap_append]
    have hn : ((await sink synthesis : Act W E (Progress Stream Audio S)).run
        ((Renderer.synthesize document : Act W E (Operation Stream)).run
          w).world).events.filterMap document? = [] := by
      apply List.filterMap_eq_nil_iff.mpr
      exact shows_await ⟨h.markers, h.readToEnd, h.bytes⟩ sink synthesis _
    rw [hn, List.append_nil]

end Pipeline

def EngineEvent.document? : EngineEvent → Option String
  | submitted document | rejected document => some document
  | voiceSet _ | propertySet _ _ => none

namespace ScriptedEngine

abbrev Mute {α : Type} (act : Act ScriptedEngine EngineEvent α) : Prop :=
  Act.Shows (fun e => e.document? = none) act

variable {p : EngineEvent → Prop}

theorem shows_pass (p : EngineEvent → Prop) (call : VoiceCall) : Act.Shows p (pass call) :=
  Act.shows_of_silent fun _ => rfl

theorem shows_listVoices (p : EngineEvent → Prop) : Act.Shows p listVoices :=
  (shows_pass p _).bind fun _ => (Act.shows_get _).bind fun _ => Act.shows_pure _ _

theorem shows_currentVoice (p : EngineEvent → Prop) : Act.Shows p currentVoice := by
  refine (shows_pass p _).bind fun _ => (Act.shows_get _).bind fun s => ?_
  split
  · exact Act.shows_pure _ _
  · exact Act.shows_fail _ _

theorem shows_setVoice {index : Nat} (h : p (.voiceSet index)) :
    Act.Shows p (setVoice index) := by
  refine (shows_pass p _).bind fun _ => (Act.shows_get _).bind fun s => ?_
  split
  · exact (Act.shows_modify _ _).bind fun _ => Act.shows_note h
  · exact Act.shows_fail _ _

theorem shows_setProperty {name : String} {value : Int} (h : p (.propertySet name value)) :
    Act.Shows p (setProperty name value) :=
  (shows_pass p _).bind fun _ => Act.shows_note h

theorem shows_voices (p : EngineEvent → Prop) (c : DriverConfig) (onlyValid : Bool) :
    Act.Shows p (Driver.voices c onlyValid : Act ScriptedEngine EngineEvent (List Voice)) :=
  (shows_listVoices p).bind fun _ => Act.shows_pure _ _

theorem shows_language (p : EngineEvent → Prop) :
    Act.Shows p (Driver.language : Act ScriptedEngine EngineEvent String) :=
  (shows_currentVoice p).bind fun _ => Act.shows_pure _ _

theorem shows_voiceId (p : EngineEvent → Prop) :
    Act.Shows p (Driver.voiceId : Act ScriptedEngine EngineEvent String) :=
  (shows_currentVoice p).bind fun _ => Act.shows_pure _ _

theorem shows_select (h : ∀ index, p (.voiceSet index)) (id : String) :
    Act.Shows p (Driver.setVoice id : Act ScriptedEngine EngineEvent Unit) := by
  refine (shows_listVoices p).bind fun voices => ?_
  split
  · exact shows_setVoice (h _)
  · exact Act.shows_fail _ _

theorem shows_direct (h : ∀ index, p (.voiceSet index)) (d : Direction) : Act.Shows p d.act := by
  cases d with
  | script o => exact (Act.shows_modify _ _).bind fun _ => Act.shows_pure _ _
  | fail f => exact (Act.shows_modify _ _).bind fun _ => Act.shows_pure _ _
  | setVoice index => exact (shows_setVoice (h index)).bind fun _ => Act.shows_pure _ _
  | voice => exact (shows_currentVoice p).bind fun _ => Act.shows_pure _ _
  | voices => exact (shows_listVoices p).bind fun _ => Act.shows_pure _ _

theorem shows_markers (p : EngineEvent → Prop) (o : Outcome) : Act.Shows p (markers o) := by
  rw [markers]
  split
  · exact Act.shows_fail _ _
  · exact Act.shows_fail _ _
  · exact Act.shows_pure _ _

theorem shows_readToEnd (p : EngineEvent → Prop) (o : Outcome) : Act.Shows p (readToEnd o) := by
  rw [readToEnd]
  split
  · exact Act.shows_fail _ _
  · exact Act.shows_fail _ _
  · exact Act.shows_of_silent fun _ => rfl

theorem shows_bytes (p : EngineEvent → Prop) (o : Outcome) : Act.Shows p (bytes o) := by
  rw [bytes]
  split
  · exact Act.shows_fail _ _
  · exact Act.shows_pure _ _

theorem reads (p : EngineEvent → Prop) : Renderer.Reads ScriptedEngine p :=
  ⟨shows_markers p, shows_readToEnd p, shows_bytes p⟩

theorem shows_accept {document : String} (hs : p (.submitted document))
    (hr : p (.rejected document)) (o : Outcome) : Act.Shows p (accept document o) := by
  rw [accept]
  split
  · exact (Act.shows_note hr).bind fun _ => Act.shows_fail _ _
  · exact (Act.shows_note hs).bind fun _ => Act.shows_of_silent fun _ => rfl

theorem shows_synthesize {document : String} (hs : p (.submitted document))
    (hr : p (.rejected document)) : Act.Shows p (synthesize document) :=
  (Act.shows_of_silent fun _ => rfl).bind fun o => shows_accept hs hr o

theorem events_synthesize (document : String) (s : ScriptedEngine) :
    ((synthesize document).run s).events =
      match ((synthesize document).run s).result with
      | .ok _ => [.submitted document]
      | .error _ => [.rejected document] := by
  have h : ∀ w, ((accept document s.nextOutcome).run w).events =
      match ((accept document s.nextOutcome).run w).result with
      | .ok _ => [.submitted document]
      | .error _ => [.rejected document] := by
    intro w
    rw [accept]
    split <;> rfl
  exact h { s with script := s.script.tail }

theorem announces : Renderer.Announces ScriptedEngine EngineEvent.document? where
  synthesize document s := by
    change ((synthesize document).run s).events.filterMap EngineEvent.document? = [document]
    rw [events_synthesize]
    split <;> rfl
  markers := (reads _).markers
  readToEnd := (reads _).readToEnd
  bytes := (reads _).bytes

end ScriptedEngine

namespace Pipeline

open ScriptedEngine

theorem result_await (read : Operation Outcome) (s : ScriptedEngine) :
    ∃ progress, ((await () read : Act ScriptedEngine EngineEvent _).run s).result =
      .ok (progress : Progress Outcome Outcome Unit) := by
  cases read with
  | atOnce reports => exact ⟨_, rfl⟩
  | parked reports => exact ⟨_, rfl⟩

theorem submission_eq (document : String) :
    submission document = synthesize document >>= await () := rfl

theorem shows_submission {p : EngineEvent → Prop} {document : String}
    (hs : p (.submitted document)) (hr : p (.rejected document)) :
    Act.Shows p (submission document) :=
  (shows_synthesize hs hr).bind fun read => shows_await (reads p) () read

theorem events_submission_of_error {document : String} {s : ScriptedEngine} {e : Error}
    (h : ((submission document).run s).result = .error e) :
    ((submission document).run s).events = [.rejected document] := by
  have hs := events_synthesize document s
  rw [submission_eq] at h ⊢
  cases hr : ((synthesize document).run s).result with
  | error e' =>
    rw [hr] at hs
    rw [Act.run_bind_of_error hr]
    exact hs
  | ok read =>
    rw [Act.run_bind_of_ok hr] at h
    obtain ⟨progress, hp⟩ := result_await read ((synthesize document).run s).world
    cases hp.symm.trans h

/-- An accepted document is shown first, and nothing after it hands another one over. -/
theorem events_submission_of_ok {document : String} {s : ScriptedEngine}
    {progress : Progress Outcome Outcome Unit}
    (h : ((submission document).run s).result = .ok progress) :
    ∃ later, ((submission document).run s).events = .submitted document :: later ∧
      ∀ e ∈ later, e.document? = none := by
  have hs := events_synthesize document s
  rw [submission_eq] at h ⊢
  obtain ⟨read, hr, _⟩ := Act.result_bind_eq_ok.1 h
  rw [hr] at hs
  rw [Act.run_bind_of_ok hr]
  refine ⟨((await () read).run ((synthesize document).run s).world).events, ?_,
    shows_await (reads _) () read _⟩
  show _ ++ _ = _
  rw [hs]
  rfl

end Pipeline

end SpeechBridge

import SpeechBridge.Driver.Session

/-!
# What an utterance takes from the script

Only submitting uses the script up. Main statements: what an outcome weighs in the script goes to
the utterance that takes it, and each job that runs leaves the utterance lighter.
-/
namespace SpeechBridge

namespace ScriptedEngine

theorem scriptWeight_tail (s : ScriptedEngine) :
    ({ s with script := s.script.tail } : ScriptedEngine).scriptWeight + s.nextOutcome.weight =
      s.scriptWeight := by
  rcases s with ⟨_, script, _, _, _⟩
  cases script with
  | nil => rfl
  | cons o os =>
    simp only [scriptWeight, nextOutcome, List.tail_cons, List.headD_cons, total_cons]
    omega

theorem keeps_pass (call : VoiceCall) : Act.Keeps ScriptedEngine.script (pass call) := fun _ => rfl

theorem keeps_listVoices : Act.Keeps ScriptedEngine.script listVoices :=
  (keeps_pass _).bind fun _ => (Act.keeps_get _).bind fun _ => Act.keeps_pure _ _

theorem keeps_currentVoice : Act.Keeps ScriptedEngine.script currentVoice := by
  refine (keeps_pass _).bind fun _ => (Act.keeps_get _).bind fun s => ?_
  split
  · exact Act.keeps_pure _ _
  · exact Act.keeps_fail _ _

theorem keeps_setVoice (index : Nat) : Act.Keeps ScriptedEngine.script (setVoice index) := by
  refine (keeps_pass _).bind fun _ => (Act.keeps_get _).bind fun s => ?_
  split
  · refine Act.Keeps.bind (Act.keeps_modify ?_) fun _ => Act.keeps_note _ _
    exact fun _ => rfl
  · exact Act.keeps_fail _ _

theorem keeps_setProperty (name : String) (value : Int) :
    Act.Keeps ScriptedEngine.script (setProperty name value) :=
  (keeps_pass _).bind fun _ => Act.keeps_note _ _

theorem keeps_language :
    Act.Keeps ScriptedEngine.script (Driver.language : Act ScriptedEngine EngineEvent String) :=
  keeps_currentVoice.bind fun _ => Act.keeps_pure _ _

theorem keeps_voiceId :
    Act.Keeps ScriptedEngine.script (Driver.voiceId : Act ScriptedEngine EngineEvent String) :=
  keeps_currentVoice.bind fun _ => Act.keeps_pure _ _

theorem keeps_sendRate (d : Driver) :
    Act.Keeps ScriptedEngine.script (d.sendRate : Act ScriptedEngine EngineEvent Unit) :=
  keeps_setProperty _ _

theorem keeps_sendPitch (d : Driver) :
    Act.Keeps ScriptedEngine.script (d.sendPitch : Act ScriptedEngine EngineEvent Unit) :=
  keeps_setProperty _ _

theorem keeps_voices (c : DriverConfig) (onlyValid : Bool) :
    Act.Keeps ScriptedEngine.script
      (Driver.voices c onlyValid : Act ScriptedEngine EngineEvent (List Voice)) :=
  keeps_listVoices.bind fun _ => Act.keeps_pure _ _

theorem scriptWeight_direct (d : Direction) (s : ScriptedEngine) :
    (d.act.run s).world.scriptWeight + 1 < s.scriptWeight + (DriverCall.direct d).weight := by
  have of_keeps : Act.Keeps ScriptedEngine.script d.act →
      (d.act.run s).world.scriptWeight = s.scriptWeight := fun h => by
    rw [scriptWeight, scriptWeight, h]
  cases d with
  | script o =>
    show (({ s with script := s.script ++ [o] } : ScriptedEngine)).scriptWeight + 1 < _
    simp only [scriptWeight, DriverCall.weight, total_append,
      total_cons, total_nil]
    omega
  | fail f => exact Nat.lt_succ_of_lt (Nat.lt_succ_self _)
  | setVoice index =>
    rw [of_keeps ((keeps_setVoice index).bind fun _ => Act.keeps_pure _ _)]
    simp [DriverCall.weight]
  | voice =>
    rw [of_keeps (keeps_currentVoice.bind fun _ => Act.keeps_pure _ _)]
    simp [DriverCall.weight]
  | voices =>
    rw [of_keeps (keeps_listVoices.bind fun _ => Act.keeps_pure _ _)]
    simp [DriverCall.weight]

theorem keeps_select (id : String) :
    Act.Keeps ScriptedEngine.script (Driver.setVoice id : Act ScriptedEngine EngineEvent Unit) := by
  refine keeps_listVoices.bind fun voices => ?_
  split
  · exact keeps_setVoice _
  · exact Act.keeps_fail _ _

theorem keeps_markers (o : Outcome) : Act.Keeps ScriptedEngine.script (markers o) := by
  rw [markers]
  split
  · exact Act.keeps_fail _ _
  · exact Act.keeps_fail _ _
  · exact Act.keeps_pure _ _

theorem keeps_readToEnd (o : Outcome) : Act.Keeps ScriptedEngine.script (readToEnd o) := by
  rw [readToEnd]
  split
  · exact Act.keeps_fail _ _
  · exact Act.keeps_fail _ _
  · exact fun _ => rfl

theorem keeps_bytes (o : Outcome) : Act.Keeps ScriptedEngine.script (bytes o) := by
  rw [bytes]
  split
  · exact Act.keeps_fail _ _
  · exact Act.keeps_pure _ _

theorem markers_result {o : Outcome} {s : ScriptedEngine} {ms : List Marker}
    (h : ((markers o).run s).result = .ok ms) : ms = o.markers := by
  unfold markers at h
  split at h <;> simp_all [Act.run, Act.fail, pure]

theorem keeps_accept (document : String) (o : Outcome) :
    Act.Keeps ScriptedEngine.script (accept document o) := by
  rw [accept]
  split
  · exact (Act.keeps_note _ _).bind fun _ => Act.keeps_fail _ _
  · exact (Act.keeps_note _ _).bind fun _ => fun _ => rfl

theorem scriptWeight_synthesize (document : String) (s : ScriptedEngine) :
    ((synthesize document).run s).world.scriptWeight + s.nextOutcome.weight = s.scriptWeight := by
  have h : ((synthesize document).run s).world.script = s.script.tail := by
    rw [synthesize, Act.world_bind_of_ok rfl]
    exact keeps_accept document s.nextOutcome { s with script := s.script.tail }
  rw [← s.scriptWeight_tail, scriptWeight, h]
  rfl

theorem weightOf_synthesisReports (o : Outcome) : Job.weightOf (synthesisReports o) ≤ o.weight := by
  rw [synthesisReports]
  split <;> simp [Job.weightOf]

theorem result_synthesize {document : String} {s : ScriptedEngine} {read : Operation Outcome}
    (h : ((synthesize document).run s).result = .ok read) :
    read = s.mode.operation (synthesisReports s.nextOutcome) := by
  obtain ⟨_, ho, h⟩ := Act.result_bind_eq_ok.1 h
  cases ho
  unfold accept at h
  split at h
  · cases h
  · cases h
    rfl

end ScriptedEngine

theorem Job.weight_pos (job : DriverJob) : 0 < job.weight := by
  cases job <;> simp only [Job.weight] <;> omega

namespace Pipeline

/-- An advance that leaves the script alone and weighs no more than a bound. -/
def Light (s : ScriptedEngine) (bound : Nat)
    (a : Advance ScriptedEngine EngineEvent Outcome Outcome Unit) : Prop :=
  a.world.script = s.script ∧ a.progress.weight ≤ bound

theorem Light.mono {s : ScriptedEngine} {m n : Nat}
    {a : Advance ScriptedEngine EngineEvent Outcome Outcome Unit} (h : Light s m a) (hmn : m ≤ n) :
    Light s n a :=
  ⟨h.1, Nat.le_trans h.2 hmn⟩

theorem light_onAudio (ms : List Marker) (audio : Except Error Outcome) (s : ScriptedEngine) :
    Light s (9 + 5 * ms.length) (onAudio () ms audio s) := by
  have hk : Act.Keeps ScriptedEngine.script
      ((do Renderer.bytes (← Act.ofExcept audio)) : Act ScriptedEngine EngineEvent (List UInt8)) :=
    (Act.keeps_ofExcept _ _).bind ScriptedEngine.keeps_bytes
  unfold onAudio
  dsimp only
  split
  · exact ⟨hk s, by simp [Progress.weight, Fate.weight]⟩
  · exact ⟨hk s, by simp [Progress.weight, Fate.weight]⟩

theorem light_onReadReports (ms : List Marker) (reports : List (Except Error Outcome))
    (s : ScriptedEngine) : Light s (9 + 5 * ms.length) (onReadReports () ms reports s) := by
  rw [onReadReports]
  rw [Slot.calls_full]
  cases reports with
  | nil => exact ⟨rfl, by simp [Progress.weight, Fate.weight]⟩
  | cons r rs => exact light_onAudio ms r s

theorem keeps_collect (stream : Except Error Outcome) :
    Act.Keeps ScriptedEngine.script
      (collect stream : Act ScriptedEngine EngineEvent (List Marker × Operation Outcome)) :=
  (Act.keeps_ofExcept _ _).bind fun o => (ScriptedEngine.keeps_markers o).bind fun _ =>
    (ScriptedEngine.keeps_readToEnd o).bind fun _ => Act.keeps_pure _ _

theorem weightOf_collect {stream : Except Error Outcome} {s : ScriptedEngine} {ms : List Marker}
    {read : Operation Outcome}
    (h : ((collect stream : Act ScriptedEngine EngineEvent _).run s).result = .ok (ms, read)) :
    5 * ms.length = Job.weightOf [stream] := by
  obtain ⟨o, ho, h⟩ := Act.result_bind_eq_ok.1 h
  obtain ⟨_, hm, h⟩ := Act.result_bind_eq_ok.1 h
  obtain ⟨_, _, h⟩ := Act.result_bind_eq_ok.1 h
  cases h
  obtain rfl : stream = .ok o := ho
  rw [ScriptedEngine.markers_result hm]
  rfl

theorem light_onStream (stream : Except Error Outcome) (s : ScriptedEngine) :
    Light s (10 + Job.weightOf [stream]) (onStream () stream s) := by
  have hk := keeps_collect stream s
  rw [onStream]
  dsimp only
  split
  · exact ⟨hk, by simp only [Progress.weight, Fate.weight]; omega⟩
  next h => exact ⟨hk, by simp only [Progress.weight, Job.weight, weightOf_collect h]; omega⟩
  next ms reports h =>
    have hl := light_onReadReports ms reports
      ((collect stream : Act ScriptedEngine EngineEvent _).run s).world
    rw [weightOf_collect h] at hl
    exact ⟨hl.1.trans hk, Nat.le_trans hl.2 (by omega)⟩

theorem weightOf_head (r : Except Error Outcome) (rs : List (Except Error Outcome)) :
    Job.weightOf (r :: rs) = Job.weightOf [r] := by
  cases r <;> rfl

theorem light_onSynthesisReports (reports : List (Except Error Outcome)) (s : ScriptedEngine) :
    Light s (10 + Job.weightOf reports) (onSynthesisReports () reports s) := by
  rw [onSynthesisReports]
  rw [Slot.calls_full]
  cases reports with
  | nil => exact ⟨rfl, by show (9 : Nat) ≤ _; omega⟩
  | cons r rs =>
    rw [weightOf_head]
    exact light_onStream r s

theorem light_resume (s : ScriptedEngine) (job : DriverJob) :
    Light s (job.weight - 1) (resume s job) := by
  cases job with
  | synthesis reports _ => exact (light_onSynthesisReports reports s).mono (by simp [Job.weight])
  | read reports ms _ => exact (light_onReadReports ms reports s).mono (by simp [Job.weight])

theorem keeps_await (read : Operation Outcome) :
    Act.Keeps ScriptedEngine.script
      (await () read : Act ScriptedEngine EngineEvent (Progress Outcome Outcome Unit)) := by
  cases read with
  | atOnce reports => exact fun s => (light_onSynthesisReports reports s).1
  | parked reports => exact fun _ => rfl

theorem weight_of_await {s : ScriptedEngine} {mode : CompletionMode}
    {reports : List (Except Error Outcome)} {progress : Progress Outcome Outcome Unit}
    (h : ((await () (mode.operation reports) : Act ScriptedEngine EngineEvent _).run s).result =
      .ok progress) : progress.weight ≤ 11 + Job.weightOf reports := by
  cases mode with
  | inline =>
    cases h
    exact Nat.le_trans (light_onSynthesisReports reports s).2 (by omega)
  | manual =>
    cases h
    exact Nat.le_refl _

abbrev submission (document : String) :
    Act ScriptedEngine EngineEvent (Progress Outcome Outcome Unit) :=
  submit document ()

theorem scriptWeight_submission (document : String) (s : ScriptedEngine) :
    ((submission document).run s).world.scriptWeight + s.nextOutcome.weight = s.scriptWeight := by
  rw [← ScriptedEngine.scriptWeight_synthesize document s]
  cases hr : ((Renderer.synthesize document : Act ScriptedEngine EngineEvent _).run s).result with
  | error _ => rw [submission, submit, Act.world_bind_of_error hr]; rfl
  | ok read =>
    rw [submission, submit, Act.world_bind_of_ok hr, ScriptedEngine.scriptWeight, keeps_await]
    rfl

/-- Submitting uses up an outcome, whose weight goes to the utterance. -/
theorem weight_of_submission {document : String} {s : ScriptedEngine}
    {progress : Progress Outcome Outcome Unit}
    (h : ((submission document).run s).result = .ok progress) :
    ((submission document).run s).world.scriptWeight + progress.weight ≤ s.scriptWeight + 11 := by
  have hs := scriptWeight_submission document s
  have ho := ScriptedEngine.weightOf_synthesisReports s.nextOutcome
  obtain ⟨read, hr, h⟩ := Act.result_bind_eq_ok.1 h
  obtain rfl := ScriptedEngine.result_synthesize hr
  have hw := weight_of_await h
  omega

end Pipeline

end SpeechBridge

import SpeechBridge.Platform.Basic
import SpeechBridge.Proofs.Fates

/-!
# What the platform yields

Whatever an operation of the platform reports as a success is what was asked of it: the rendering of
the document, and the bytes of its stream. Main statement: the markers of a stream are read in
order up to the first one that cannot be had, and all of them if no such failure is planned.
-/
namespace SpeechBridge

namespace Conduct

theorem value_of_report {α : Type} {c : Conduct} {value a : α} (h : c.report value = .ok a) :
    a = value := by
  unfold report at h
  split at h
  · cases h
  · split at h
    · split at h
      · cases h
      · exact (Except.ok.inj h).symm
    · cases h
    · split at h <;> cases h
    · split at h <;> cases h

theorem value_of_operation {α : Type} {c : Conduct} {mode : CompletionMode} {value a : α}
    (h : .ok a ∈ (c.operation mode value).reports) : a = value := by
  have hreports : ∀ r ∈ c.handlerReports value, r = c.report value := by
    intro r hr
    unfold handlerReports at hr
    split at hr
    · cases hr
    · split at hr <;> simpa using hr
  unfold operation at h
  split at h
  · rcases List.mem_append.mp h with h | h
    · split at h
      · exact value_of_report (hreports _ h).symm
      · cases h
    · cases List.mem_singleton.mp h
  · have hm : .ok a ∈ c.handlerReports value := by
      cases mode <;> exact h
    exact value_of_report (hreports _ hm).symm

end Conduct

namespace Platform

def marker (m : List UInt16 × Int) : Marker := .ofTicks (text m.1) m.2

theorem world_pass (call : SystemCall) (p : Platform) :
    ((pass call).run p).world =
      { p with failures := (CallFailure.consult call p.failures).1 } := by
  rw [run_pass]

theorem rendering_of_synthesize {document : String} {p : Platform} {synthesis : Operation Rendering}
    (h : ((synthesize document).run p).result = .ok synthesis) :
    ∀ r, .ok r ∈ synthesis.reports → r = p.script.headD .silent := by
  intro r hr
  obtain ⟨_, _, h⟩ := Act.result_bind_eq_ok.mp h
  obtain ⟨_, _, h⟩ := Act.result_bind_eq_ok.mp h
  rw [world_pass] at h
  cases h
  exact Conduct.value_of_operation hr

theorem bytes_of_readToEnd {r : Rendering} {p : Platform} {read : Operation (List UInt8)}
    (h : ((readToEnd r).run p).result = .ok read) :
    ∀ bytes, .ok bytes ∈ read.reports → bytes = r.audio.take r.streamSize := by
  intro bytes hb
  obtain ⟨_, _, h⟩ := Act.result_bind_eq_ok.mp h
  dsimp only at h
  split at h
  · obtain ⟨_, _, h⟩ := Act.result_bind_eq_ok.mp h
    obtain ⟨_, _, h⟩ := Act.result_bind_eq_ok.mp h
    obtain ⟨_, _, h⟩ := Act.result_bind_eq_ok.mp h
    obtain ⟨_, _, h⟩ := Act.result_bind_eq_ok.mp h
    obtain ⟨_, _, h⟩ := Act.result_bind_eq_ok.mp h
    cases h
    exact Conduct.value_of_operation hb
  · cases h

theorem bytes_of_bufferBytes {audio bytes : List UInt8} {p : Platform}
    (h : ((bufferBytes audio).run p).result = .ok bytes) : bytes = audio := by
  obtain ⟨_, _, h⟩ := Act.result_bind_eq_ok.mp h
  split at h
  next ha =>
    cases h
    exact ha.symm
  next =>
    obtain ⟨_, _, h⟩ := Act.result_bind_eq_ok.mp h
    cases h
    rfl

theorem marker_of_readMarker {m : List UInt16 × Int} {p : Platform} {read : Marker}
    (h : ((readMarker m).run p).result = .ok read) : read = marker m := by
  obtain ⟨_, _, h⟩ := Act.result_bind_eq_ok.mp h
  obtain ⟨_, _, h⟩ := Act.result_bind_eq_ok.mp h
  cases h
  rfl

variable {α β : Type} {call : SystemCall} {read : α → Call β} {value : α → β}

theorem readItems_prefix (hread : ∀ a p b, ((read a).run p).result = .ok b → b = value a)
    {items : List α} {p : Platform} {values : List β}
    (h : ((readItems call read items).run p).result = .ok values) :
    values <+: items.map value := by
  induction items generalizing p values with
  | nil =>
    obtain ⟨_, _, h⟩ := Act.result_bind_eq_ok.mp h
    cases h
    exact List.nil_prefix
  | cons item items ih =>
    obtain ⟨code, _, h⟩ := Act.result_bind_eq_ok.mp h
    cases code with
    | some code =>
      cases h
      exact List.nil_prefix
    | none =>
      obtain ⟨first, hf, h⟩ := Act.result_bind_eq_ok.mp h
      obtain ⟨others, ho, h⟩ := Act.result_bind_eq_ok.mp h
      cases h
      rw [hread item _ _ hf]
      exact (List.prefix_cons_inj _).mpr (ih ho)

/-- The names of the calls that failures are planned for. -/
def planned (p : Platform) : List SystemCall := p.failures.map (·.call)

theorem calls_consult (call : SystemCall) (failures : List CallFailure) :
    (CallFailure.consult call failures).1.map (·.call) = failures.map (·.call) := by
  induction failures with
  | nil => rfl
  | cons f fs ih =>
    rw [CallFailure.consult]
    split
    · rfl
    · rw [List.map_cons, List.map_cons, ih]
      split <;> rfl

theorem consult_of_notMem {call : SystemCall} {failures : List CallFailure}
    (h : call ∉ failures.map (·.call)) : (CallFailure.consult call failures).2 = none := by
  induction failures with
  | nil => rfl
  | cons f fs ih =>
    rw [List.map_cons, List.mem_cons, not_or] at h
    rw [CallFailure.consult, if_neg]
    · exact ih h.2
    · rintro ⟨hf, _⟩
      exact h.1 hf.symm

theorem keeps_planned_failure? (call : SystemCall) : Act.Keeps planned (failure? call) := by
  intro p
  exact calls_consult call p.failures

theorem keeps_planned_pass (call : SystemCall) : Act.Keeps planned (pass call) := by
  apply (keeps_planned_failure? call).bind
  intro code
  cases code with
  | none => exact Act.keeps_pure _ _
  | some code => exact Act.keeps_fail _ _

theorem keeps_planned_readMarker (m : List UInt16 × Int) :
    Act.Keeps planned (readMarker m) := by
  apply (keeps_planned_pass _).bind
  intro _
  apply (keeps_planned_pass _).bind
  intro _
  exact Act.keeps_pure _ _

/-- Without planned failures of the call every item is read. -/
theorem readItems_whole (hread : ∀ a p b, ((read a).run p).result = .ok b → b = value a)
    (hkeeps : ∀ a, Act.Keeps planned (read a)) {items : List α} {p : Platform} {values : List β}
    (hp : call ∉ p.planned) (h : ((readItems call read items).run p).result = .ok values) :
    values = items.map value := by
  induction items generalizing p values with
  | nil =>
    obtain ⟨_, _, h⟩ := Act.result_bind_eq_ok.mp h
    cases h
    rfl
  | cons item items ih =>
    obtain ⟨code, hc, h⟩ := Act.result_bind_eq_ok.mp h
    have hnone : code = none := (Except.ok.inj hc).symm.trans (consult_of_notMem hp)
    subst hnone
    obtain ⟨first, hf, h⟩ := Act.result_bind_eq_ok.mp h
    obtain ⟨others, ho, h⟩ := Act.result_bind_eq_ok.mp h
    cases h
    rw [hread item _ _ hf, List.map_cons]
    congr 1
    apply ih _ ho
    rw [hkeeps, keeps_planned_failure?]
    exact hp

/-- The markers of a stream are read in order, and all of them if no failure to get one is
planned. -/
theorem markers_of_streamMarkers {r : Rendering} {p : Platform} {markers : List Marker}
    (h : ((streamMarkers r).run p).result = .ok markers) :
    markers <+: r.markers.map marker ∧
      (.markersGetAt ∉ p.planned → markers = r.markers.map marker) := by
  obtain ⟨_, _, h⟩ := Act.result_bind_eq_ok.mp h
  have hread : ∀ m p read, ((readMarker m).run p).result = .ok read → read = marker m :=
    fun _ _ _ => marker_of_readMarker
  constructor
  · exact readItems_prefix hread h
  · intro hp
    apply readItems_whole hread keeps_planned_readMarker _ h
    rw [keeps_planned_pass]
    exact hp

end Platform

end SpeechBridge

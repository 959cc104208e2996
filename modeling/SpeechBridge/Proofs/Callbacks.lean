import SpeechBridge.Proofs.Hosts
import SpeechBridge.Proofs.Renderings

/-!
# Callbacks

An utterance that has ended delivered has called back once, with what the platform has made of its
document. Main statement: which calls to speak of a host are accepted, and which callback each of
them gets.
-/
namespace SpeechBridge

namespace SpeakCall

theorem Accepted.unique {s : SpeakCall} {id id' : CallbackId}
    {synthesis synthesis' : Operation Rendering} (h : s.Accepted id synthesis)
    (k : s.Accepted id' synthesis') : id = id' ∧ synthesis = synthesis' := by
  obtain ⟨hr, units, ht, hs⟩ := h
  obtain ⟨kr, units', kt, ks⟩ := k
  have hu : units = units' := Option.some.inj (ht.symm.trans kt)
  subst hu
  constructor
  · exact Option.some.inj (Option.some.inj (hr.symm.trans kr))
  · exact Except.ok.inj (hs.symm.trans ks)

/-- What is delivered is what the platform has made of the document. -/
theorem Accepted.rendering {s : SpeakCall} {id : CallbackId} {synthesis : Operation Rendering}
    (ha : s.Accepted id synthesis) (ho : s.course.Own synthesis.reports) {bytes : List UInt8}
    {markers : List Marker} (hd : s.course.Delivers bytes markers) :
    bytes = s.rendering.audio.take s.rendering.streamSize ∧
      markers <+: s.rendering.markers.map Platform.marker ∧
      ∀ told, s.course.stream = some told → .markersGetAt ∉ told.engine.planned →
        markers = s.rendering.markers.map Platform.marker := by
  obtain ⟨_, units, _, hs⟩ := ha
  generalize hc : s.course = course at ho hd
  cases hd with
  | @mk stream audio v w _ _ hm hb =>
    have hstream : stream = s.rendering :=
      Platform.rendering_of_synthesize hs stream (List.mem_of_head? (ho.stream _ rfl))
    subst hstream
    obtain ⟨stream, w', _, read, hreads, hread⟩ := ho.audio _ rfl
    obtain ⟨hok, rfl⟩ := Told.mk.inj (Option.some.inj hreads.told)
    obtain rfl := Except.ok.inj hok
    have haudio := Platform.bytes_of_readToEnd hreads.read audio (List.mem_of_head? hread)
    obtain ⟨hinitial, hwhole⟩ := Platform.markers_of_streamMarkers hm
    refine ⟨?_, hinitial, ?_⟩
    · rw [← haudio]
      exact Platform.bytes_of_bufferBytes hb
    · intro told ht hp
      obtain rfl := Option.some.inj ht
      exact hwhole hp

end SpeakCall

namespace Flat

theorem callbacks_delivered {id : CallbackId} {bytes : List UInt8} {markers : List Marker}
    (h : bytes.length ≤ callbackLimit) :
    (showHappening (.ended id (.delivered bytes markers))).filter FlatEvent.isCallback =
      [.callback id bytes (Markers.toWide markers)] := by
  rw [showHappening, deliver, if_pos h]
  rfl

theorem eq_of_mem_callbacks {id : CallbackId} {fate : Fate} {e : FlatEvent}
    (h : e ∈ (showHappening (.ended id fate)).filter FlatEvent.isCallback) :
    ∃ bytes markers, fate = .delivered bytes markers ∧
      e = .callback id bytes (Markers.toWide markers) := by
  obtain ⟨he, hc⟩ := List.mem_filter.mp h
  cases fate with
  | delivered bytes markers =>
    refine ⟨bytes, markers, rfl, ?_⟩
    rw [List.mem_singleton.mp he] at hc ⊢
    unfold deliver at hc ⊢
    split
    · rfl
    next hn =>
      rw [if_neg hn] at hc
      cases hc
  | failed e =>
    rw [List.mem_singleton.mp he] at hc
    cases hc
  | dropped => cases he

theorem length_callbacks_le (id : CallbackId) (fate : Fate) :
    ((showHappening (.ended id fate)).filter FlatEvent.isCallback).length ≤ 1 := by
  apply Nat.le_trans (List.length_filter_le _ _)
  cases fate with
  | delivered bytes markers => exact Nat.le_refl 1
  | failed e => exact Nat.le_refl 1
  | dropped => exact Nat.zero_le 1

end Flat

namespace Host

theorem Stands.callbacks_of_accepted {h : Host} {k : Nat} {s : SpeakCall} (hs : Stands h k s)
    {id : CallbackId} {synthesis : Operation Rendering} (ha : s.Accepted id synthesis) :
    s.result = .status 0 ∧ s.course.Own synthesis.reports ∧
      ∃ fate, (∀ bytes markers, fate = .delivered bytes markers ↔
          s.course.Delivers bytes markers) ∧
        h.callbacks k = (Flat.showHappening (.ended id fate)).filter FlatEvent.isCallback := by
  cases hs with
  | refused _ hn _ _ => exact absurd ha (hn id synthesis)
  | waiting hr ha' _ hw _ hc =>
    obtain ⟨rfl, rfl⟩ := ha.unique ha'
    obtain ⟨hown, hnone⟩ := hw.own
    refine ⟨hr, hown, .dropped, ?_, hc⟩
    intro bytes markers
    exact iff_of_false Fate.noConfusion (Course.not_delivers_of_none hnone bytes markers)
  | ended hr ha' hown hf _ hc =>
    obtain ⟨rfl, rfl⟩ := ha.unique ha'
    exact ⟨hr, hown, _, hf, hc⟩

theorem Stands.refused_iff {h : Host} {k : Nat} {s : SpeakCall} (hs : Stands h k s) :
    (s.result = .status 0 ∧ ∃ id synthesis, s.Accepted id synthesis) ∨
      (s.result = .status (-1) ∧ (∀ id synthesis, ¬ s.Accepted id synthesis) ∧
        h.callbacks k = []) := by
  cases hs with
  | refused hr hn _ hc => exact .inr ⟨hr, hn, hc⟩
  | waiting hr ha _ _ _ _ => exact .inl ⟨hr, _, _, ha⟩
  | ended hr ha _ _ _ _ => exact .inl ⟨hr, _, _, ha⟩

/-- Every callback is that of a call to speak. -/
theorem Kept.exists_speak {h : Host} (hk : Kept h) :
    ∀ e ∈ h.shown, e.2.isCallback → ∃ k < h.spoken.length, e.1 = some k := by
  intro e he hc
  cases htag : e.1 with
  | none =>
    rw [hk.untagged e he htag] at hc
    cases hc
  | some k =>
    by_cases hlt : k < h.spoken.length
    · exact ⟨k, hlt, rfl⟩
    · have hnone := (hk.strangers k (Nat.le_of_not_lt hlt)).2
      have hmem : e.2 ∈ h.callbacks k := by
        apply List.mem_map_of_mem
        apply List.mem_filter.mpr
        exact ⟨he, by simp [htag, hc]⟩
      rw [hnone] at hmem
      cases hmem

/-- A call to speak returns zero if it is accepted and minus one if not, and without being accepted
it gets no callback. With it, the callback that was registered then is made once if both operations
of the utterance have reported success and the markers and the bytes can be read, with these, and
else not at all. No other call makes a callback. -/
theorem callback_of_each_speak {h : Host} (hr : Reached h) :
    h.spoken.map SpeakCall.dealing = h.dealings.filter Dealing.isSpeak ∧
    (∀ e ∈ h.shown, e.2.isCallback → ∃ k < h.spoken.length, e.1 = some k) ∧
    ∀ k s, h.spoken[k]? = some s →
      s.past <+: h.dealings ∧
      (s.result = .status 0 ∨ s.result = .status (-1)) ∧
      (s.result = .status 0 ↔ ∃ id synthesis, s.Accepted id synthesis) ∧
      (s.result = .status (-1) → h.callbacks k = []) ∧
      ∀ id synthesis, s.Accepted id synthesis →
        s.course.Own synthesis.reports ∧
        (h.callbacks k).length ≤ 1 ∧
        (∀ e ∈ h.callbacks k, ∃ bytes markers, s.course.Delivers bytes markers ∧
          e = .callback id bytes (Markers.toWide markers)) ∧
        ∀ bytes markers, s.course.Delivers bytes markers →
          bytes = s.rendering.audio.take s.rendering.streamSize ∧
          markers <+: s.rendering.markers.map Platform.marker ∧
          (∀ told, s.course.stream = some told → .markersGetAt ∉ told.engine.planned →
            markers = s.rendering.markers.map Platform.marker) ∧
          (bytes.length ≤ Flat.callbackLimit →
            h.callbacks k = [.callback id bytes (Markers.toWide markers)]) := by
  refine ⟨hr.faithful.asked, hr.kept.exists_speak, ?_⟩
  intro k s hs
  have hstands := hr.kept.stands k s hs
  have hpast : s.past ∈ h.spoken.map SpeakCall.past :=
    List.mem_map_of_mem (List.mem_of_getElem? hs)
  refine ⟨hr.faithful.past _ hpast, ?_⟩
  have haccepted : ∀ id synthesis, s.Accepted id synthesis → s.result = .status 0 :=
    fun _ _ ha => (hstands.callbacks_of_accepted ha).1
  refine ⟨?_, ?_, ?_, ?_⟩
  · rcases hstands.refused_iff with ⟨hzero, _⟩ | ⟨hone, _⟩
    · exact .inl hzero
    · exact .inr hone
  · constructor
    · intro hzero
      rcases hstands.refused_iff with ⟨_, ha⟩ | ⟨hone, _⟩
      · exact ha
      · cases hzero.symm.trans hone
    · rintro ⟨id, synthesis, ha⟩
      exact haccepted id synthesis ha
  · intro hone
    rcases hstands.refused_iff with ⟨hzero, _⟩ | ⟨_, _, hc⟩
    · cases hzero.symm.trans hone
    · exact hc
  · intro id synthesis ha
    obtain ⟨_, hown, fate, hfate, hc⟩ := hstands.callbacks_of_accepted ha
    rw [hc]
    refine ⟨hown, Flat.length_callbacks_le id fate, ?_, ?_⟩
    · intro e he
      obtain ⟨bytes, markers, hf, rfl⟩ := Flat.eq_of_mem_callbacks he
      exact ⟨bytes, markers, (hfate bytes markers).mp hf, rfl⟩
    · intro bytes markers hd
      obtain ⟨hbytes, hinitial, hwhole⟩ := ha.rendering hown hd
      refine ⟨hbytes, hinitial, hwhole, ?_⟩
      intro hlength
      rw [(hfate bytes markers).mpr hd]
      exact Flat.callbacks_delivered hlength

def underway : Host :=
  let brief : Rendering :=
    { audio := [1, 2, 3, 4], markers := [([119], 227)], size := none
      synthesis := { Conduct.plain with twice := true }, read := .plain }
  (((start ⟨.manual, [], [brief], []⟩).call 0 .create).call 0 (.setCallback (some 1))).call 0
    (.speak (some [72, 105]))

/-- It registers another callback, asks for speech without a text, and lets the instance go before
the speech is complete. -/
def hasty : Host :=
  ((((underway.call 0 (.setCallback (some 2))).call 0 (.speak none)).call 0 .terminate).complete
    0).complete 0

theorem reached_hasty : Reached hasty := by
  have hcalls : ∀ (h : Host) handle c, Reached h → Reached (h.call handle c) :=
    fun h handle c hr => hr.move (.call h handle c)
  have hunderway : Reached underway := by
    unfold underway
    apply hcalls
    apply hcalls
    apply hcalls
    exact .start _
  unfold hasty
  refine (Reached.move ?_ (.complete _ 0)).move (.complete _ 0)
  apply hcalls
  apply hcalls
  apply hcalls
  exact hunderway

theorem hasty_gets_first_callback :
    Reached hasty ∧
      hasty.callbacks 0 = [.callback 1 [1, 2, 3, 4] [119, 58, 50, 50, 55, 0]] := by
  refine ⟨reached_hasty, ?_⟩
  obtain ⟨s, hs⟩ : ∃ s, hasty.spoken[0]? = some s := ⟨_, rfl⟩
  obtain ⟨-, -, hspoken⟩ := callback_of_each_speak reached_hasty
  obtain ⟨-, -, -, -, hgets⟩ := hspoken 0 s hs
  obtain rfl := Option.some.inj hs
  obtain ⟨-, -, -, hdelivers⟩ := hgets 1 _ ⟨by decide +kernel, [72, 105], by decide +kernel, rfl⟩
  obtain ⟨-, -, -, hcallback⟩ := hdelivers [1, 2, 3, 4] [.ofTicks "w" 227]
    (.mk (by decide +kernel) (by decide +kernel))
  exact hcallback (by decide)

end Host

end SpeechBridge

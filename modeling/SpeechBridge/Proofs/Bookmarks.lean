import SpeechBridge.Proofs.Exchanges
import SpeechBridge.Proofs.Stretches
import SpeechBridge.Proofs.Uncancelled

/-!
# Bookmarks from end to end

A bookmark of a sequence becomes a mark of the document, comes back as a marker of the engine, and
is reported in playback. Main statement: an engine that answers each mark with a marker of its name
has the bookmarks of the sequence reported as they stand in it, each as often as it occurs.
-/
namespace SpeechBridge

open Xml (Markup Node)

namespace Xml.Markup

mutual

/-- The names of the marks in a content, in its order. -/
def marks : Markup → List String
  | .char _ => []
  | .element name attributes content =>
    (if name = "mark" then (attributes.lookup "name").toList else []) ++ marksAll content

def marksAll : List Markup → List String
  | [] => []
  | m :: ms => marks m ++ marksAll ms

end

theorem marksAll_append (a b : List Markup) : marksAll (a ++ b) = marksAll a ++ marksAll b := by
  induction a with
  | nil => rfl
  | cons m ms ih => simp [marksAll, ih]

theorem marksAll_chars (cs : List Char) : marksAll (cs.map .char) = [] := by
  induction cs with
  | nil => rfl
  | cons c cs ih => simp [marksAll, marks, ih]

mutual

theorem marksAll_unwrap {names : List String} (h : "mark" ∉ names) :
    (m : Markup) → marksAll (unwrap names m) = marks m
  | .char c => rfl
  | .element name attributes content => by
    rw [unwrap]
    split
    next hm =>
      have hn : name ≠ "mark" := fun he => h (he ▸ hm)
      rw [marksAll_unwrapAll h content, marks, if_neg hn, List.nil_append]
    next => rw [marksAll, marksAll, List.append_nil]

theorem marksAll_unwrapAll {names : List String} (h : "mark" ∉ names) :
    (ms : List Markup) → marksAll (unwrapAll names ms) = marksAll ms
  | [] => rfl
  | m :: ms => by
    rw [unwrapAll, marksAll_append, marksAll_unwrap h m, marksAll_unwrapAll h ms, marksAll]

end

end Xml.Markup

namespace SpeechItem

def bookmark? : SpeechItem → Option Nat
  | index n => some n.toNat
  | _ => none

theorem marksAll_written (item : SpeechItem) :
    Markup.marksAll item.written = item.bookmark?.toList.map Nat.repr := by
  cases item with
  | text content => exact Markup.marksAll_chars _
  | phoneme ipa text =>
    rw [written, Markup.marksAll, Markup.marks, Markup.marksAll_chars]
    rfl
  | _ => rfl

theorem marksAll_flatMap_written (items : List SpeechItem) :
    Markup.marksAll (items.flatMap written) = (items.filterMap bookmark?).map Nat.repr := by
  induction items with
  | nil => rfl
  | cons item items ih =>
    rw [List.flatMap_cons, Markup.marksAll_append, marksAll_written, ih, List.filterMap_cons]
    cases item.bookmark? <;> rfl

theorem lt_of_mem_bookmarks {items : List SpeechItem} {n : Nat}
    (h : n ∈ items.filterMap bookmark?) : n < 4294967296 := by
  obtain ⟨item, _, hn⟩ := List.mem_filterMap.mp h
  cases item with
  | index m =>
    obtain rfl : m.toNat = n := Option.some.inj hn
    exact m.toNat_lt
  | _ => cases hn

end SpeechItem

namespace Converter

/-- The marks of a document are the bookmarks of its sequence, whatever stands between them. -/
theorem marks_convert (c : Converter) (items : List SpeechItem) :
    (Xml.parse (c.convert items).toList).map Markup.marksAll =
      some ((items.filterMap SpeechItem.bookmark?).map Nat.repr) := by
  have hu := (carries_passages c c.sound_start items).unwrapped
  have hw : "mark" ∉ wrappers := by decide
  rw [Node.seenAll_append] at hu
  rw [parse_convert, Option.map_some, Markup.marksAll, Markup.marks, if_neg (by decide),
    Markup.marksAll, List.nil_append, List.append_nil, ← Markup.marksAll_unwrapAll hw, hu,
    SpeechItem.marksAll_flatMap_written]

end Converter

namespace Playback

theorem bookmark?_of_text {m : Marker} {n : Nat} (h : m.text = n.repr) (hn : n < 4294967296) :
    bookmark? m = some n := by
  have hw : m.text.toList = Numeral.write n := by
    rw [h]
    exact Nat.toList_repr
  rw [bookmark?, hw, Numeral.readBelow_write, if_pos hn]

theorem bookmarks_of_text {markers : List Marker} {ns : List Nat}
    (h : markers.map Marker.text = ns.map Nat.repr) (hn : ∀ n ∈ ns, n < 4294967296) :
    markers.filterMap bookmark? = ns := by
  induction markers generalizing ns with
  | nil =>
    cases ns with
    | nil => rfl
    | cons n ns => cases h
  | cons m markers ih =>
    cases ns with
    | nil => cases h
    | cons n ns =>
      obtain ⟨hm, hms⟩ := List.cons.inj h
      obtain ⟨hlt, hlts⟩ := List.forall_mem_cons.mp hn
      rw [List.filterMap_cons, bookmark?_of_text hm hlt, ih hms hlts]

end Playback

namespace Session

theorem marks_of_spoken {call : Session} {document : String} {caller : Caller}
    {items : List SpeechItem} {later : List Task} (hs : call.occurrence = .spoken document)
    (ha : call.agenda = .call caller (.speak items) :: later) :
    (Xml.parse document.toList).map Markup.marksAll =
      some ((items.filterMap SpeechItem.bookmark?).map Nat.repr) := by
  rw [occurrence, ha] at hs
  obtain ⟨language, _, rfl⟩ := heard_eq_spoken_iff.mp hs
  exact Converter.marks_convert _ items

/-- The document of an utterance in progress was handed over last, and took an outcome. -/
theorem Run.exists_exchange {past : List Session} {s : Session} (h : Run past s)
    (ho : s.outstanding ≠ 0) :
    ∃ before call document between outcome, past = before ++ call :: between ∧
      Origin before call document between s ∧
      (exchanges past).getLast? = some (document, outcome) := by
  obtain ⟨before, call, document, between, hp, horigin, hd⟩ := h.exists_origin ho
  rw [← h.fst_exchanges, List.getLast?_map] at hd
  obtain ⟨⟨_, outcome⟩, hx, rfl⟩ := Option.map_eq_some_iff.mp hd
  exact ⟨before, call, _, between, outcome, hp, horigin, hx⟩

theorem Run.fate_of_exchange {past : List Session} {landed : Session} {fate : Fate}
    {rest : List Task} (h : Run past landed) (hd : landed.agenda = .land fate :: rest)
    {document : String} {outcome : Outcome}
    (hx : (exchanges past).getLast? = some (document, outcome)) :
    fate = ScriptedEngine.answers.fate (ScriptedEngine.synthesisReports outcome) := by
  have hm : fate ∈ landed.fates := by
    rw [fates, hd]
    exact List.mem_append_right _ List.mem_cons_self
  obtain ⟨_, _, hl, hf⟩ := h.follows fate hm
  cases hx.symm.trans hl
  exact hf

/-- Every utterance that ends stems from a call to speak, and its document took an outcome of the
engine. If that has a marker for each mark of the document, with its name as the text and at any
place, and if nothing is cancelled, then what is reported until the end of its playback are the
bookmarks of the call. -/
theorem bookmarks_survive {past : List Session} {landed : Session} {fate : Fate}
    {rest : List Task} (h : Run past landed) (hd : landed.agenda = .land fate :: rest) :
    (∃ before call document between outcome, past = before ++ call :: between ∧
      Origin before call document between landed ∧
      (exchanges past).getLast? = some (document, outcome)) ∧
    ∀ before call document between outcome caller items later,
      past = before ++ call :: between → Origin before call document between landed →
      call.agenda = .call caller (.speak items) :: later →
      (exchanges past).getLast? = some (document, outcome) → outcome.mishap = none →
      (Xml.parse document.toList).map Markup.marksAll = some (outcome.markers.map Marker.text) →
      fate = .delivered outcome.audio outcome.markers ∧
      (∃ n, landed.Ends n) ∧
      ∀ n, landed.Ends n → (∀ u ∈ between ++ landed.trail n, u.occurrence ≠ .cancelled) →
        Playback.reported ((landed.trail n).flatMap speaks) =
          items.filterMap SpeechItem.bookmark? := by
  constructor
  · apply h.exists_exchange
    simp [outstanding, hd, Task.holdsSink]
  · rintro before call document between outcome caller items later rfl ho ha hx hm ht
    have hf : fate = .delivered outcome.audio outcome.markers := by
      rw [h.fate_of_exchange hd hx, ScriptedEngine.fate_of_no_mishap hm]
    subst hf
    obtain ⟨hend, hfull⟩ := h.delivered_in_full hd
    refine ⟨rfl, hend, ?_⟩
    intro n hn hc
    rw [List.forall_mem_append] at hc
    have hflag := clear_trail (h.clear_of_origin ho hc.1) hc.2
    have hnames : outcome.markers.map Marker.text =
        (items.filterMap SpeechItem.bookmark?).map Nat.repr := by
      rw [marks_of_spoken ho.spoken ha] at ht
      exact (Option.some.inj ht).symm
    rw [hfull n hn hflag, Playback.reported_rounds]
    exact Playback.bookmarks_of_text hnames fun _ => SpeechItem.lt_of_mem_bookmarks

/-- A text that looks like a mark, settings in between, and one bookmark twice. -/
def guided : List SpeechItem :=
  [.text "<mark name=\"9\" />", .index 3, .language (some "de_DE"), .index 7, .phoneme "a" "b",
    .characterMode true, .index 3]

def guiding : Session :=
  start ⟨.standard, 2, fun _ => true⟩ true []
    (oneVoice .inline [⟨[0, 0, 1, 2, 3, 4, 5, 6],
      [.ofTicks "3" 908, .ofTicks "7" 454, .ofTicks "3" 1000000000000], none⟩])

def guidance : Session := guiding.receive (.speak guided)

theorem run_guidance : Run [guiding, guidance] guidance.step :=
  ((Run.start _ _ _ _).move (.receive (.speak guided) rfl)).move (.step _)

theorem guided_bookmarks_survive :
    ∃ n, guidance.step.Ends n ∧
      Playback.reported ((guidance.step.trail n).flatMap speaks) = [3, 7, 3] := by
  have hs : guidance.occurrence = .spoken (guiding.driver.document "en-US" guided) := rfl
  have ho : Origin [guiding] guidance (guiding.driver.document "en-US" guided) []
      guidance.step := by
    constructor
    · rfl
    · decide
  have he : guidance.step.Ends 15 := by
    constructor
    · rfl
    · decide
  have hc : ∀ u ∈ [] ++ guidance.step.trail 15, u.occurrence ≠ .cancelled := by decide
  have hd : guidance.step.agenda = .land (.delivered [0, 0, 1, 2, 3, 4, 5, 6]
      [.ofTicks "3" 908, .ofTicks "7" 454, .ofTicks "3" 1000000000000]) ::
        guidance.step.agenda.tail := rfl
  obtain ⟨_, hall⟩ := bookmarks_survive run_guidance hd
  obtain ⟨_, _, hsurvive⟩ := hall _ _ _ _ _ _ _ _ rfl ho rfl rfl rfl (marks_of_spoken hs rfl)
  exact ⟨15, he, hsurvive 15 he hc⟩

end Session

end SpeechBridge

import SpeechBridge.Proofs.Stretches

/-!
# Changes that leave no trace

A change of settings shows in a document by what it does to what is in effect, and only where
something is spoken after it. Main statement: without one that does neither, the document is the
same.
-/
namespace SpeechBridge

namespace Conversion

/-- Apart from whether a change is noted, a conversion keeps what is in effect after its items. -/
theorem exists_effect_foldl_take (c : Converter) (items : List SpeechItem) :
    ∃ noted, (items.foldl (take c) (.start c)).effect =
      { c.effectAfter items with changed := noted } := by
  induction items using List.reverseRecOn with
  | nil => exact ⟨c.start.changed, rfl⟩
  | append_singleton items item ih =>
    obtain ⟨noted, he⟩ := ih
    rw [List.foldl_append, List.foldl_cons, List.foldl_nil]
    generalize items.foldl (take c) (.start c) = s at he ⊢
    cases hs : item.isSpoken with
    | false =>
      rw [take_of_setting c s hs, he, c.effectAfter_append]
      exact c.adjust_noted _ noted item
    | true =>
      rw [c.effectAfter_append_of_spoken items hs]
      cases hc : s.effect.changed with
      | true =>
        rw [take_of_changed c hs hc, he]
        exact ⟨false, rfl⟩
      | false =>
        rw [take_of_unchanged c hs hc]
        exact ⟨noted, he⟩

/-- A change that leaves what is in effect as it is leaves the conversion as it is. -/
theorem take_of_ineffective (c : Converter) (items : List SpeechItem) {item : SpeechItem}
    (hs : item.isSpoken = false) (he : c.inEffect (items ++ [item]) = c.inEffect items)
    (hp : c.spells (items ++ [item]) = c.spells items) :
    take c (items.foldl (take c) (.start c)) item = items.foldl (take c) (.start c) := by
  obtain ⟨noted, hn⟩ := exists_effect_foldl_take c items
  generalize items.foldl (take c) (.start c) = s at hn ⊢
  obtain ⟨b, hb⟩ := c.adjust_noted (c.effectAfter items) noted item
  rw [← hn, ← c.effectAfter_append] at hb
  have hvalues (t : Setting) :
      (c.adjust s.effect item).scope.value? t = s.effect.scope.value? t := by
    rw [hb, hn]
    dsimp only
    rw [c.value?_effectAfter, c.value?_effectAfter, he]
  have hspelling : (c.adjust s.effect item).spelling = s.effect.spelling := by
    rw [hb, hn]
    dsimp only
    rw [c.spelling_effectAfter, c.spelling_effectAfter, hp]
  have htidy : s.effect.scope.Tidy := by
    rw [hn]
    exact c.tidy_effectAfter items
  rw [take_of_setting c s hs, c.adjust_of_same htidy hvalues, hspelling]

theorem finish_foldl_take_of_settings (c : Converter) (s : Conversion) {items : List SpeechItem}
    (h : ∀ item ∈ items, item.isSpoken = false) : (items.foldl (take c) s).finish = s.finish := by
  induction items generalizing s with
  | nil => rfl
  | cons item items ih =>
    rw [List.forall_mem_cons] at h
    rw [List.foldl_cons, ih _ h.2, take_of_setting c s h.1]
    rfl

end Conversion

namespace Converter

/-- A change of settings that leaves what is in effect as it is, or that nothing spoken follows,
can be left out: the document is the same. -/
theorem convert_without_ineffective (c : Converter) (before after : List SpeechItem)
    {change : SpeechItem} (hs : change.isSpoken = false)
    (h : ((∀ t, c.inEffect (before ++ [change]) t = c.inEffect before t) ∧
        c.spells (before ++ [change]) = c.spells before) ∨
      ∀ item ∈ after, item.isSpoken = false) :
    c.convert (before ++ change :: after) = c.convert (before ++ after) := by
  rw [convert, convert, List.foldl_append, List.foldl_append, List.foldl_cons]
  rcases h with ⟨he, hp⟩ | ha
  · rw [Conversion.take_of_ineffective c before hs (funext he) hp]
  · rw [Conversion.finish_foldl_take_of_settings c _ ha, Conversion.take_of_setting c _ hs,
      Conversion.finish_foldl_take_of_settings c _ ha]
    rfl

def bilingual : Converter := ⟨"en_US", .leveled (.clamp 50)⟩

def germanSoFar : List SpeechItem := [.language (some "de_DE"), .text "a"]

/-- A tag with a hyphen names the language that is in effect by a tag with an underscore. -/
theorem convert_without_respelled_tag :
    SpeechItem.isSpoken (.language (some "de-DE")) = false ∧
    (∀ t, bilingual.inEffect (germanSoFar ++ [.language (some "de-DE")]) t =
      bilingual.inEffect germanSoFar t) ∧
    bilingual.spells (germanSoFar ++ [.language (some "de-DE")]) = bilingual.spells germanSoFar ∧
    bilingual.convert (germanSoFar ++ .language (some "de-DE") :: [.text "b"]) =
      bilingual.convert (germanSoFar ++ [.text "b"]) := by
  have he : ∀ t, bilingual.inEffect (germanSoFar ++ [.language (some "de-DE")]) t =
      bilingual.inEffect germanSoFar t := by
    intro t
    cases t <;> decide +kernel
  exact ⟨rfl, he, rfl, bilingual.convert_without_ineffective germanSoFar [.text "b"] rfl
    (.inl ⟨he, rfl⟩)⟩

end Converter

end SpeechBridge

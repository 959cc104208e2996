import SpeechBridge.Proofs.Stretches

/-!
# The characters of documents

Not every character that a text can hold may stand in a document, and escaping helps only those
that are markup. Main statement: a document has allowed characters only, exactly if this holds of
the language that it is in, and of the texts of each spoken item and the language in effect for it.
-/
namespace SpeechBridge

open Xml (Markup Node)

namespace Xml

/-- Tab and line ends, and from the blank on all but the last two of the basic plane. -/
def Allowed (c : Char) : Prop :=
  c ∈ ['\t', '\n', '\r'] ∨ (0x20 ≤ c.toNat ∧ c.toNat ≤ 0xD7FF) ∨
    (0xE000 ≤ c.toNat ∧ c.toNat ≤ 0xFFFD) ∨ 0x10000 ≤ c.toNat

instance : DecidablePred Allowed := fun _ => inferInstanceAs (Decidable (_ ∨ _ ∨ _ ∨ _))

def AllAllowed (cs : List Char) : Prop := ∀ c ∈ cs, Allowed c

instance : DecidablePred AllAllowed := fun cs => List.decidableBAll Allowed cs

def IsText (s : String) : Prop := AllAllowed s.toList

instance (s : String) : Decidable (IsText s) := inferInstanceAs (Decidable (AllAllowed _))

variable {ch : Char}

theorem notMem_of_allAllowed (h : ¬ Allowed ch) {cs : List Char} (hc : AllAllowed cs) : ch ∉ cs :=
  fun hm => h (hc ch hm)

theorem mem_escape_iff (h : ¬ Allowed ch) {c : Char} {cs : List Char} (hc : Allowed c)
    (hcs : AllAllowed cs) : ch ∈ cs ↔ ch = c :=
  iff_of_false (notMem_of_allAllowed h hcs) fun he => h (he ▸ hc)

theorem mem_escapeText_iff (h : ¬ Allowed ch) (c : Char) : ch ∈ escapeText c ↔ ch = c := by
  rw [escapeText]
  split
  next hc => exact mem_escape_iff h (hc ▸ by decide) (by decide)
  split
  next hc => exact mem_escape_iff h (hc ▸ by decide) (by decide)
  split
  next hc => exact mem_escape_iff h (hc ▸ by decide) (by decide)
  · exact List.mem_singleton

theorem mem_escapeValue_iff (h : ¬ Allowed ch) (c : Char) : ch ∈ escapeValue c ↔ ch = c := by
  rw [escapeValue]
  split
  next hc => exact mem_escape_iff h (hc ▸ by decide) (by decide)
  split
  next hc => exact mem_escape_iff h (hc ▸ by decide) (by decide)
  split
  next hc => exact mem_escape_iff h (hc ▸ by decide) (by decide)
  split
  next hc => exact mem_escape_iff h (hc ▸ by decide) (by decide)
  · exact mem_escapeText_iff h c

theorem mem_flatMap_escape_iff {escape : Char → List Char} (h : ∀ c, ch ∈ escape c ↔ ch = c)
    (cs : List Char) : ch ∈ cs.flatMap escape ↔ ch ∈ cs := by
  simp [List.mem_flatMap, h]

def attributeChars (a : Attribute) : List Char := a.1.toList ++ a.2.toList

namespace Markup

mutual

def chars : Markup → List Char
  | .char c => [c]
  | .element name attributes content =>
    name.toList ++ attributes.flatMap attributeChars ++ charsAll content

def charsAll : List Markup → List Char
  | [] => []
  | m :: ms => chars m ++ charsAll ms

end

theorem charsAll_append (a b : List Markup) : charsAll (a ++ b) = charsAll a ++ charsAll b := by
  induction a with
  | nil => rfl
  | cons m ms ih => simp [charsAll, ih]

theorem charsAll_chars (cs : List Char) : charsAll (cs.map .char) = cs := by
  induction cs with
  | nil => rfl
  | cons c cs ih => simp [charsAll, chars, ih]

theorem mem_element_iff {name : String} {attributes : List Attribute} {content : List Markup} :
    ch ∈ charsAll [.element name attributes content] ↔
      (ch ∈ name.toList ∨ ∃ a ∈ attributes, ch ∈ a.1.toList ∨ ch ∈ a.2.toList) ∨
        ch ∈ charsAll content := by
  simp only [charsAll, chars, attributeChars, List.append_nil, List.mem_append, List.mem_flatMap]

theorem mem_named_element_iff (h : ¬ Allowed ch) {name : String} {attributes : List Attribute}
    {content : List Markup} (hn : IsText name) (ha : ∀ a ∈ attributes, IsText a.1) :
    ch ∈ charsAll [.element name attributes content] ↔
      (∃ a ∈ attributes, ch ∈ a.2.toList) ∨ ch ∈ charsAll content := by
  have hk : ∀ a ∈ attributes, (ch ∈ a.1.toList ∨ ch ∈ a.2.toList ↔ ch ∈ a.2.toList) :=
    fun a hm => or_iff_right (notMem_of_allAllowed h (ha a hm))
  rw [mem_element_iff, or_iff_right (notMem_of_allAllowed h hn)]
  apply or_congr_left
  exact exists_congr fun a => and_congr_right (hk a)

theorem mem_charsAll_flatMap {α : Type} {f : α → List Markup} {xs : List α} :
    ch ∈ charsAll (xs.flatMap f) ↔ ∃ x ∈ xs, ch ∈ charsAll (f x) := by
  induction xs with
  | nil => simp [charsAll]
  | cons x xs ih => simp [charsAll_append, ih]

end Markup

theorem mem_renderAttribute_iff (h : ¬ Allowed ch) {a : Attribute} :
    ch ∈ renderAttribute a ↔ ch ∈ attributeChars a := by
  have hq : ch ∉ "=\"".toList := notMem_of_allAllowed h (by decide)
  have hb : ch ∉ [' '] := notMem_of_allAllowed h (by decide)
  have he : ch ∉ ['"'] := notMem_of_allAllowed h (by decide)
  rw [renderAttribute, attributeChars, List.mem_append, List.mem_append, List.mem_append,
    List.mem_cons, mem_flatMap_escape_iff (mem_escapeValue_iff h), List.mem_append]
  rw [List.mem_singleton] at hb
  simp only [hq, hb, he, or_false, false_or]

theorem mem_openTag_iff (h : ¬ Allowed ch) {name : String} {attributes : List Attribute} :
    ch ∈ openTag name attributes ↔
      ch ∈ name.toList ++ attributes.flatMap attributeChars := by
  have hb : ch ∉ ['<'] := notMem_of_allAllowed h (by decide)
  rw [List.mem_singleton] at hb
  simp only [openTag, List.cons_append, List.mem_cons, hb, false_or, List.mem_append,
    List.mem_flatMap, mem_renderAttribute_iff h]

theorem mem_closeTag_iff (h : ¬ Allowed ch) {name : String} :
    ch ∈ closeTag name ↔ ch ∈ name.toList := by
  have hb : ch ∉ "</".toList := notMem_of_allAllowed h (by decide)
  have he : ch ∉ ['>'] := notMem_of_allAllowed h (by decide)
  simp only [closeTag, List.mem_append, hb, he, false_or, or_false]

namespace Node

mutual

/-- A character that is not allowed is written exactly if the tree is read back with it. -/
theorem mem_render_iff (h : ¬ Allowed ch) (n : Node) :
    ch ∈ n.render ↔ ch ∈ Markup.charsAll n.seen := by
  cases n with
  | text content =>
    rw [render, mem_flatMap_escape_iff (mem_escapeText_iff h), seen, Markup.charsAll_chars]
  | element name attributes children =>
    have ih := mem_renderAll_iff h children
    rw [seen, Markup.charsAll, Markup.charsAll, List.append_nil, Markup.chars]
    cases children with
    | nil =>
      have he : ch ∉ " />".toList := notMem_of_allAllowed h (by decide)
      rw [render, List.mem_append, mem_openTag_iff h, or_iff_left he, seenAll, Markup.charsAll,
        List.append_nil]
    | cons n ns =>
      have he : ch ∉ ['>'] := notMem_of_allAllowed h (by decide)
      rw [render]
      simp only [List.mem_append, mem_openTag_iff h, mem_closeTag_iff h, he, or_false, ih]
      exact or_iff_left_of_imp fun hn => .inl (.inl hn)

theorem mem_renderAll_iff (h : ¬ Allowed ch) (ns : List Node) :
    ch ∈ renderAll ns ↔ ch ∈ Markup.charsAll (seenAll ns) := by
  cases ns with
  | nil => rfl
  | cons n ns =>
    rw [renderAll, seenAll, Markup.charsAll_append, List.mem_append, List.mem_append,
      mem_render_iff h n, mem_renderAll_iff h ns]

end

end Node

end Xml

namespace SpeechItem

/-- The texts that an item gives to be written. -/
def texts : SpeechItem → List String
  | text content => [content]
  | phoneme ipa content => [ipa, content]
  | _ => []

end SpeechItem

variable {ch : Char}

theorem mem_hyphenate_iff (h : ¬ Xml.Allowed ch) {tag : String} :
    ch ∈ (hyphenate tag).toList ↔ ch ∈ tag.toList := by
  have hs : ch ≠ '-' := fun he => h (he ▸ by decide)
  have hu : ch ≠ '_' := fun he => h (he ▸ by decide)
  rw [hyphenate, String.toList_ofList, List.mem_map]
  constructor
  · rintro ⟨c, hc, he⟩
    split at he
    · exact absurd he.symm hs
    · exact he ▸ hc
  · intro hc
    exact ⟨ch, hc, if_neg hu⟩

theorem notMem_write (h : ¬ Xml.Allowed ch) (n : Nat) : ch ∉ Numeral.write n := by
  intro hm
  have hd := Numeral.isDigit_of_mem_write hm
  rw [Char.isDigit, Bool.and_eq_true, decide_eq_true_eq, decide_eq_true_eq] at hd
  have hlow : 48 ≤ ch.toNat := UInt32.le_iff_toNat_le.mp hd.1
  have hhigh : ch.toNat ≤ 57 := UInt32.le_iff_toNat_le.mp hd.2
  exact h (.inr (.inl ⟨by omega, by omega⟩))

namespace Converter

open SpeechItem (contexts)
open Xml (Allowed IsText)

theorem notMem_decimal (h : ¬ Allowed ch) (n : Nat) : ch ∉ (decimal n).toList := by
  rw [decimal, String.toList_ofList]
  exact notMem_write h n

theorem notMem_percentText (h : ¬ Allowed ch) (m : Multiplier) : ch ∉ (percentText m).toList := by
  have hp : ch ∉ ['%'] := Xml.notMem_of_allAllowed h (by decide)
  have hs : ch ∉ ['-'] := Xml.notMem_of_allAllowed h (by decide)
  rw [percentText, String.toList_ofList, List.mem_append, not_or]
  refine ⟨?_, hp⟩
  cases m.percent with
  | ofNat n => exact notMem_write h n
  | negSucc n =>
    rw [Numeral.writeInt, List.mem_cons, not_or]
    exact ⟨fun he => hs (List.mem_singleton.mpr he), notMem_write h _⟩

/-- All values of settings are numerals, but for the language. -/
theorem eq_language_of_mem (h : ¬ Allowed ch) {c : Converter} {before : List SpeechItem}
    {t : Setting} {value : String} (hv : c.inEffect before t = some value)
    (hm : ch ∈ value.toList) : t = .language := by
  have relative (t : Setting) : relativeValue before t ≠ some value := by
    intro hr
    obtain ⟨m, _, hp⟩ := Option.bind_eq_some_iff.mp hr
    split at hp
    · cases hp
    · cases hp
      rw [← percentText_eq] at hm
      exact notMem_percentText h m hm
  cases t with
  | language => rfl
  | pitch => exact absurd hv (relative .pitch)
  | rate => exact absurd hv (relative .rate)
  | volume =>
    rw [inEffect] at hv
    split at hv
    · exact absurd hv (relative .volume)
    · cases hv
      exact absurd hm (notMem_decimal h _)

theorem mem_enclose_iff {s : Scope} {content : List Markup} :
    ch ∈ Markup.charsAll (s.enclose content) ↔
      (∃ e ∈ s, ch ∈ e.1.toList ∨ ∃ a ∈ e.2, ch ∈ a.1.toList ∨ ch ∈ a.2.toList) ∨
        ch ∈ Markup.charsAll content := by
  induction s with
  | nil => simp [Scope.enclose]
  | cons e es ih =>
    have he : Scope.enclose (e :: es) content = [.element e.1 e.2 (Scope.enclose es content)] := rfl
    rw [he, Markup.mem_element_iff, ih]
    simp only [List.mem_cons, exists_eq_or_imp, or_assoc]

theorem mem_scope_iff (h : ¬ Allowed ch) (c : Converter) (before : List SpeechItem) :
    (∃ e ∈ (c.effectAfter before).scope,
        ch ∈ e.1.toList ∨ ∃ a ∈ e.2, ch ∈ a.1.toList ∨ ch ∈ a.2.toList) ↔
      ∃ tag ∈ c.inEffect before .language, ch ∈ tag.toList := by
  have ht := c.tidy_effectAfter before
  have names : ∀ name ∈ ["prosody", "voice"], ch ∉ name.toList := fun name hn =>
    Xml.notMem_of_allAllowed h (by revert name; decide)
  have keys (t : Setting) : ch ∉ t.attributeName.toList :=
    Xml.notMem_of_allAllowed h (by cases t <;> decide)
  constructor
  · rintro ⟨e, he, hm | ⟨a, ha, hm | hm⟩⟩
    · exact absurd hm (names e.1 (ht.sound e he).element)
    · obtain ⟨t, _, hk, _⟩ := ht.value?_of_mem he ha
      exact absurd (hk ▸ hm) (keys t)
    · obtain ⟨t, _, _, hv⟩ := ht.value?_of_mem he ha
      rw [value?_effectAfter] at hv
      exact ⟨a.2, eq_language_of_mem h hv hm ▸ hv, hm⟩
  · rintro ⟨tag, hv, hm⟩
    rw [Option.mem_def, ← value?_effectAfter] at hv
    obtain ⟨as, he, ha⟩ := ht.value?_eq_some_iff.mp hv
    exact ⟨_, he, .inr ⟨_, ha, .inr hm⟩⟩

theorem mem_markup_iff (h : ¬ Allowed ch) {item : SpeechItem} (hs : item.isSpoken = true)
    (spelling : Bool) :
    ch ∈ Markup.charsAll (item.markup spelling) ↔ ∃ s ∈ item.texts, ch ∈ s.toList := by
  have fixed {s : String} (hs : IsText s) : ch ∉ s.toList := Xml.notMem_of_allAllowed h hs
  cases item with
  | text content =>
    have htext : (∃ s ∈ (SpeechItem.text content).texts, ch ∈ s.toList) ↔ ch ∈ content.toList := by
      simp [SpeechItem.texts]
    have hvalue : ch ∉ "characters".toList := fixed (by decide)
    rw [htext, SpeechItem.markup]
    split
    · rw [Markup.mem_named_element_iff h (by decide) (by decide), Markup.charsAll_chars]
      simp only [List.mem_singleton, exists_eq_left, hvalue, false_or]
    · rw [Markup.charsAll_chars]
  | index n =>
    have hvalue : ch ∉ n.toNat.repr.toList := notMem_decimal h n.toNat
    have hm : (SpeechItem.index n).markup spelling =
        [.element "mark" [("name", n.toNat.repr)] []] := rfl
    rw [hm, Markup.mem_named_element_iff h (by decide) (by simp; decide)]
    simp only [List.mem_singleton, exists_eq_left, hvalue, Markup.charsAll, SpeechItem.texts,
      List.not_mem_nil, false_and, exists_false, or_self]
  | pause millis =>
    have hvalue : ch ∉ (millis.toNat.repr ++ "ms").toList := by
      have hunit : ch ∉ "ms".toList := fixed (by decide)
      rw [String.toList_append, List.mem_append, not_or]
      exact ⟨notMem_decimal h millis.toNat, hunit⟩
    have hm : (SpeechItem.pause millis).markup spelling =
        [.element "break" [("time", millis.toNat.repr ++ "ms")] []] := rfl
    rw [hm, Markup.mem_named_element_iff h (by decide) (by simp; decide)]
    simp only [List.mem_singleton, exists_eq_left, hvalue, Markup.charsAll, SpeechItem.texts,
      List.not_mem_nil, false_and, exists_false, or_self]
  | phoneme ipa content =>
    have hvalue : ch ∉ "ipa".toList := fixed (by decide)
    have hm : (SpeechItem.phoneme ipa content).markup spelling =
        [.element "phoneme" [("alphabet", "ipa"), ("ph", ipa)] (content.toList.map .char)] := rfl
    rw [hm, Markup.mem_named_element_iff h (by decide) (by simp; decide), Markup.charsAll_chars]
    simp only [List.mem_cons, List.not_mem_nil, or_false, exists_eq_or_imp, exists_eq_left, hvalue,
      false_or, SpeechItem.texts]
  | _ => cases hs

theorem mem_stretch_iff (h : ¬ Allowed ch) (c : Converter) {s : Stretch}
    (hs : ∀ x ∈ s.items, s.scope = (c.effectAfter x.1).scope) (he : s.scope = [] ∨ s.items ≠ [])
    (hi : ∀ x ∈ s.items, x.2.isSpoken = true) :
    ch ∈ Markup.charsAll (s.markup c) ↔
      ∃ x ∈ s.items, (∃ t ∈ x.2.texts, ch ∈ t.toList) ∨
        ∃ tag ∈ c.inEffect x.1 .language, ch ∈ tag.toList := by
  rw [Stretch.markup, mem_enclose_iff, Markup.mem_charsAll_flatMap]
  constructor
  · rintro (⟨e, hm, hc⟩ | ⟨x, hx, hm⟩)
    · rcases he with hnil | hne
      · rw [hnil] at hm
        cases hm
      · obtain ⟨x, hx⟩ := List.exists_mem_of_ne_nil _ hne
        exact ⟨x, hx, .inr ((mem_scope_iff h c x.1).mp ⟨e, hs x hx ▸ hm, hc⟩)⟩
    · exact ⟨x, hx, .inl ((mem_markup_iff h (hi x hx) _).mp hm)⟩
  · rintro ⟨x, hx, hm | htag⟩
    · exact .inr ⟨x, hx, (mem_markup_iff h (hi x hx) _).mpr hm⟩
    · rw [hs x hx]
      exact .inl ((mem_scope_iff h c x.1).mpr htag)

theorem mem_rootAttributes_iff (h : ¬ Allowed ch) (c : Converter) :
    (∃ a ∈ c.rootAttributes, ch ∈ a.2.toList) ↔ ch ∈ c.language.toList := by
  have hspace : ch ∉ speechNamespace.toList := Xml.notMem_of_allAllowed h (by decide)
  have hversion : ch ∉ "1.0".toList := Xml.notMem_of_allAllowed h (by decide)
  simp only [rootAttributes, List.mem_cons, List.not_mem_nil, or_false, exists_eq_or_imp,
    exists_eq_left, hspace, hversion, false_or, mem_hyphenate_iff h]

/-- The character is in one of the texts that a document is made of. -/
def Supplies (c : Converter) (items : List SpeechItem) (ch : Char) : Prop :=
  ch ∈ c.language.toList ∨ ∃ x ∈ contexts [] items, x.2.isSpoken = true ∧
    ((∃ t ∈ x.2.texts, ch ∈ t.toList) ∨ ∃ tag ∈ c.inEffect x.1 .language, ch ∈ tag.toList)

/-- Escaping neither drops nor makes a character that is not allowed. -/
theorem mem_convert_iff (h : ¬ Allowed ch) (c : Converter) (items : List SpeechItem) :
    ch ∈ (c.convert items).toList ↔ c.Supplies items ch := by
  obtain ⟨stretches, hseen, hitems, hstretches⟩ := c.exists_stretches items
  have hspoken : ∀ s ∈ stretches, ∀ x ∈ s.items, x.2.isSpoken = true := by
    intro s hs x hx
    have hm : x ∈ stretches.flatMap Stretch.items := List.mem_flatMap.mpr ⟨s, hs, hx⟩
    rw [hitems, List.mem_filter] at hm
    exact hm.2
  rw [convert_eq, Node.toString, String.toList_ofList, Node.mem_render_iff h, hseen,
    Markup.mem_named_element_iff h (by decide) (by simp [rootAttributes]; decide),
    mem_rootAttributes_iff h, Markup.mem_charsAll_flatMap]
  apply or_congr_right
  have hmem (x : List SpeechItem × SpeechItem) :
      (x ∈ contexts [] items ∧ x.2.isSpoken = true) ↔ ∃ s ∈ stretches, x ∈ s.items := by
    rw [← List.mem_flatMap, hitems, List.mem_filter]
  constructor
  · rintro ⟨s, hs, hm⟩
    obtain ⟨hscope, he⟩ := hstretches s hs
    obtain ⟨x, hx, hw⟩ := (mem_stretch_iff h c hscope he (hspoken s hs)).mp hm
    obtain ⟨hc, hi⟩ := (hmem x).mpr ⟨s, hs, hx⟩
    exact ⟨x, hc, hi, hw⟩
  · rintro ⟨x, hc, hi, hw⟩
    obtain ⟨s, hs, hx⟩ := (hmem x).mp ⟨hc, hi⟩
    obtain ⟨hscope, he⟩ := hstretches s hs
    exact ⟨s, hs, (mem_stretch_iff h c hscope he (hspoken s hs)).mpr ⟨x, hx, hw⟩⟩

/-- A document has allowed characters only, exactly if the language that it is in does, and for each
spoken item its texts and the language in effect. -/
theorem convert_isText_iff (c : Converter) (items : List SpeechItem) :
    IsText (c.convert items) ↔
      IsText c.language ∧ ∀ x ∈ contexts [] items, x.2.isSpoken = true →
        (∀ t ∈ x.2.texts, IsText t) ∧ ∀ tag ∈ c.inEffect x.1 .language, IsText tag := by
  constructor
  · intro hd
    have hall (ch : Char) (hw : c.Supplies items ch) : Allowed ch := by
      by_contra h
      exact h (hd ch ((mem_convert_iff h c items).mpr hw))
    refine ⟨fun ch hm => hall ch (.inl hm), ?_⟩
    intro x hx hs
    constructor
    · intro t ht ch hm
      exact hall ch (.inr ⟨x, hx, hs, .inl ⟨t, ht, hm⟩⟩)
    · intro tag ht ch hm
      exact hall ch (.inr ⟨x, hx, hs, .inr ⟨tag, ht, hm⟩⟩)
  · rintro ⟨hl, hi⟩ ch hm
    by_contra h
    rcases (mem_convert_iff h c items).mp hm with hm | ⟨x, hx, hs, ⟨t, ht, hm⟩ | ⟨tag, ht, hm⟩⟩
    · exact h (hl ch hm)
    · exact h ((hi x hx hs).1 t ht ch hm)
    · exact h ((hi x hx hs).2 tag ht ch hm)

/-- Control characters of a text are written as they are. -/
theorem control_character_written :
    ¬ IsText (Converter.convert ⟨"en", .standard⟩ [.text "\x01"]) := by
  decide

end Converter

end SpeechBridge

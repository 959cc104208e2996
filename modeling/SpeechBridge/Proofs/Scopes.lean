import SpeechBridge.Proofs.Markup

/-!
# Scopes as values of settings

A scope is tidy if it has one element for each kind of setting, with something in it. Main
statements: what setting and clearing do to the values of a tidy scope, and that its elements
show the values that are there and nothing else.
-/
namespace SpeechBridge

theorem Setting.eq_of_attributeName {s t : Setting} (h : s.attributeName = t.attributeName) :
    s = t := by
  cases s <;> cases t <;> first | rfl | exact absurd h (by decide)

section Lookup

variable {β : Type} {k : String} {v : β}

theorem lookup_cons_ite (a : String × β) (as : List (String × β)) (k : String) :
    (a :: as).lookup k = if a.1 = k then some a.2 else as.lookup k := by
  obtain ⟨name, value⟩ := a
  by_cases h : name = k
  · rw [if_pos h, h, List.lookup_cons_self]
  · rw [if_neg h, List.lookup_cons, beq_eq_false_iff_ne.mpr (Ne.symm h)]

theorem lookup_eq_none_iff_notMem {as : List (String × β)} :
    as.lookup k = none ↔ k ∉ as.map Prod.fst := by
  induction as with
  | nil => simp
  | cons a as ih =>
    rw [lookup_cons_ite, List.map_cons, List.mem_cons, not_or, ← ih]
    by_cases h : a.1 = k
    · simp [h]
    · simp [h, Ne.symm h]

theorem lookup_eq_some_iff_mem {as : List (String × β)} (h : (as.map Prod.fst).Nodup) :
    as.lookup k = some v ↔ (k, v) ∈ as := by
  induction as with
  | nil => simp
  | cons a as ih =>
    rw [List.map_cons, List.nodup_cons] at h
    rw [lookup_cons_ite, List.mem_cons]
    by_cases hk : a.1 = k
    · have hn : (k, v) ∉ as := fun hm => h.1 (hk ▸ List.mem_map_of_mem (f := Prod.fst) hm)
      rw [if_pos hk, Option.some.injEq]
      constructor
      · intro hv
        exact .inl (Prod.ext hk.symm hv.symm)
      · rintro (he | hm)
        · exact (congrArg Prod.snd he).symm
        · exact absurd hm hn
    · rw [if_neg hk, ih h.2]
      constructor
      · exact Or.inr
      · rintro (he | hm)
        · exact absurd (congrArg Prod.fst he).symm hk
        · exact hm

end Lookup

namespace Scope

theorem lookup_putAttribute (name value : String) (as : List Xml.Attribute) (k : String) :
    (putAttribute name value as).lookup k = if k = name then some value else as.lookup k := by
  induction as with
  | nil =>
    rw [putAttribute, lookup_cons_ite]
    simp only [eq_comm]
  | cons a as ih =>
    rw [putAttribute]
    by_cases h : a.1 = name
    · rw [if_pos h, lookup_cons_ite, lookup_cons_ite, h]
      by_cases hk : name = k
      · simp [hk]
      · simp [hk, Ne.symm hk]
    · rw [if_neg h, lookup_cons_ite, lookup_cons_ite, ih]
      by_cases hk : a.1 = k
      · rw [if_pos hk, if_neg (hk ▸ h), if_pos hk]
      · rw [if_neg hk, if_neg hk]

theorem lookup_eraseAttribute {as : List Xml.Attribute} (h : (as.map Prod.fst).Nodup)
    (name k : String) :
    (as.eraseP (·.1 == name)).lookup k = if k = name then none else as.lookup k := by
  induction as with
  | nil => simp
  | cons a as ih =>
    rw [List.map_cons, List.nodup_cons] at h
    by_cases hn : a.1 = name
    · rw [List.eraseP_cons_of_pos (by simpa using hn), lookup_cons_ite]
      by_cases hk : k = name
      · rw [if_pos hk, lookup_eq_none_iff_notMem, hk, ← hn]
        exact h.1
      · rw [if_neg hk, if_neg (fun he => hk (he.symm.trans hn))]
    · rw [List.eraseP_cons_of_neg (by simpa using hn), lookup_cons_ite, lookup_cons_ite, ih h.2]
      by_cases hk : a.1 = k
      · rw [if_pos hk, if_pos hk, if_neg (hk ▸ hn)]
      · rw [if_neg hk, if_neg hk]

theorem attributes_cons (e : Enclosure) (es : Scope) (element : String) :
    attributes (e :: es) element = if e.1 = element then e.2 else attributes es element := by
  rw [attributes, lookup_cons_ite]
  split <;> rfl

theorem attributes_eq_nil {s : Scope} {element : String} (h : element ∉ s.map Prod.fst) :
    s.attributes element = [] := by
  rw [attributes, lookup_eq_none_iff_notMem.mpr h]
  rfl

theorem attributes_put (s : Scope) (setting : Setting) (value element : String) :
    (s.put setting value).attributes element =
      if element = setting.elementName then
        putAttribute setting.attributeName value (s.attributes element)
      else s.attributes element := by
  induction s with
  | nil =>
    rw [put, attributes_cons]
    simp only [eq_comm]
    rfl
  | cons e es ih =>
    rw [put]
    by_cases h : e.1 = setting.elementName
    · rw [if_pos h, attributes_cons, attributes_cons]
      by_cases he : e.1 = element
      · rw [if_pos he, if_pos (he ▸ h), if_pos he]
      · rw [if_neg he, if_neg (fun hn => he (h.trans hn.symm)), if_neg he]
    · rw [if_neg h, attributes_cons, attributes_cons, ih]
      by_cases he : e.1 = element
      · rw [if_pos he, if_neg (he ▸ h), if_pos he]
      · rw [if_neg he, if_neg he]

theorem attributes_erase {s : Scope} (h : (s.map Prod.fst).Nodup) (setting : Setting)
    (element : String) :
    (s.erase setting).attributes element =
      if element = setting.elementName then
        (s.attributes element).eraseP (·.1 == setting.attributeName)
      else s.attributes element := by
  induction s with
  | nil => simp [erase, attributes]
  | cons e es ih =>
    rw [List.map_cons, List.nodup_cons] at h
    rw [erase]
    by_cases hs : e.1 = setting.elementName
    · rw [if_pos hs, attributes_cons]
      by_cases he : e.1 = element
      · rw [if_pos he, if_pos (he ▸ hs)]
        split
        next hn => rw [hn, attributes_eq_nil (he ▸ h.1)]
        next hn => rw [attributes_cons, if_pos he]
      · rw [if_neg he, if_neg (fun hn => he (hs.trans hn.symm))]
        split
        · rfl
        · rw [attributes_cons, if_neg he]
    · rw [if_neg hs, attributes_cons, attributes_cons, ih h.2]
      by_cases he : e.1 = element
      · rw [if_pos he, if_neg (he ▸ hs), if_pos he]
      · rw [if_neg he, if_neg he]

theorem value?_put (s : Scope) (setting : Setting) (value : String) (t : Setting) :
    (s.put setting value).value? t = if t = setting then some value else s.value? t := by
  rw [value?, value?, attributes_put]
  by_cases he : t.elementName = setting.elementName
  · rw [if_pos he, lookup_putAttribute]
    by_cases ha : t.attributeName = setting.attributeName
    · rw [if_pos ha, if_pos (Setting.eq_of_attributeName ha)]
    · rw [if_neg ha, if_neg (fun h => ha (congrArg _ h))]
  · rw [if_neg he, if_neg (fun h => he (congrArg _ h))]

structure Tidy (s : Scope) : Prop where
  sound : s.Sound
  once : (s.map Prod.fst).Nodup
  filled : ∀ e ∈ s, e.2 ≠ []
  owned : ∀ e ∈ s, ∀ a ∈ e.2, ∃ t : Setting, t.elementName = e.1 ∧ t.attributeName = a.1

theorem Tidy.nil : Tidy [] := by
  constructor <;> simp [Sound]

theorem mem_putAttribute {name value : String} {as : List Xml.Attribute} {a : Xml.Attribute}
    (h : a ∈ putAttribute name value as) : a.1 = name ∨ a ∈ as := by
  induction as with
  | nil =>
    rw [putAttribute, List.mem_singleton] at h
    rw [h]
    exact .inl rfl
  | cons b bs ih =>
    rw [putAttribute] at h
    split at h
    · rcases List.mem_cons.mp h with rfl | h
      · exact .inl rfl
      · exact .inr (.tail _ h)
    · rcases List.mem_cons.mp h with rfl | h
      · exact .inr (.head _)
      · exact (ih h).imp id (.tail _)

theorem putAttribute_ne_nil (name value : String) (as : List Xml.Attribute) :
    putAttribute name value as ≠ [] := by
  cases as with
  | nil => simp [putAttribute]
  | cons a as =>
    rw [putAttribute]
    split <;> simp

theorem mem_put {s : Scope} {setting : Setting} {value : String} {e : Enclosure}
    (h : e ∈ s.put setting value) :
    e ∈ s ∨ e.1 = setting.elementName ∧ ∃ as, (as = [] ∨ (e.1, as) ∈ s) ∧
      e.2 = putAttribute setting.attributeName value as := by
  induction s with
  | nil =>
    rw [put, List.mem_singleton] at h
    rw [h]
    exact .inr ⟨rfl, [], .inl rfl, rfl⟩
  | cons f fs ih =>
    rw [put] at h
    split at h
    next hf =>
      rcases List.mem_cons.mp h with rfl | h
      · exact .inr ⟨hf, f.2, .inr (.head _), rfl⟩
      · exact .inl (.tail _ h)
    next hf =>
      rcases List.mem_cons.mp h with rfl | h
      · exact .inl (.head _)
      · rcases ih h with h | ⟨he, as, ha, hp⟩
        · exact .inl (.tail _ h)
        · exact .inr ⟨he, as, ha.imp id (.tail _), hp⟩

theorem name_put (s : Scope) (setting : Setting) (value : String) :
    (s.put setting value).map Prod.fst =
      if setting.elementName ∈ s.map Prod.fst then s.map Prod.fst
      else s.map Prod.fst ++ [setting.elementName] := by
  induction s with
  | nil => rfl
  | cons e es ih =>
    rw [put]
    by_cases h : e.1 = setting.elementName
    · simp [h]
    · rw [if_neg h, List.map_cons, List.map_cons, ih]
      simp only [List.mem_cons, Ne.symm h, false_or]
      split <;> rfl

theorem Tidy.put {s : Scope} (h : Tidy s) (setting : Setting) (value : String) :
    Tidy (s.put setting value) := by
  refine ⟨h.sound.put setting value, ?_, ?_, ?_⟩
  · rw [name_put]
    split
    · exact h.once
    next hn =>
      rw [List.nodup_append]
      refine ⟨h.once, by simp, ?_⟩
      intro a ha b hb hab
      rw [hab, List.mem_singleton.mp hb] at ha
      exact hn ha
  · intro e he
    rcases mem_put he with he | ⟨_, as, _, hp⟩
    · exact h.filled e he
    · rw [hp]
      exact putAttribute_ne_nil _ _ _
  · intro e he a ha
    rcases mem_put he with he | ⟨hn, as, has, hp⟩
    · exact h.owned e he a ha
    · rw [hp] at ha
      rcases mem_putAttribute ha with ha | ha
      · exact ⟨setting, hn.symm, ha.symm⟩
      · rcases has with rfl | has
        · cases ha
        · exact h.owned _ has a ha

theorem mem_erase {s : Scope} {setting : Setting} {e : Enclosure} (h : e ∈ s.erase setting) :
    ∃ as, (e.1, as) ∈ s ∧ e.2.Sublist as ∧ (as ≠ [] → e.2 ≠ []) := by
  induction s with
  | nil => cases h
  | cons f fs ih =>
    have later : e ∈ fs → ∃ as, (e.1, as) ∈ f :: fs ∧ e.2.Sublist as ∧ (as ≠ [] → e.2 ≠ []) :=
      fun h => ⟨e.2, .tail _ h, .refl _, id⟩
    rw [erase] at h
    split at h
    · split at h
      · exact later h
      next hn =>
        rcases List.mem_cons.mp h with rfl | h
        · exact ⟨f.2, .head _, List.eraseP_sublist, fun _ => hn⟩
        · exact later h
    · rcases List.mem_cons.mp h with rfl | h
      · exact ⟨e.2, .head _, .refl _, id⟩
      · obtain ⟨as, ha, hs⟩ := ih h
        exact ⟨as, .tail _ ha, hs⟩

theorem name_erase (s : Scope) (setting : Setting) :
    ((s.erase setting).map Prod.fst).Sublist (s.map Prod.fst) := by
  induction s with
  | nil => exact .refl _
  | cons e es ih =>
    rw [erase]
    split
    · split
      · exact .cons _ (.refl _)
      · exact .refl _
    · exact .cons_cons _ ih

theorem Tidy.erase {s : Scope} (h : Tidy s) (setting : Setting) : Tidy (s.erase setting) := by
  refine ⟨h.sound.erase setting, h.once.sublist (name_erase s setting), ?_, ?_⟩
  · intro e he
    obtain ⟨as, ha, _, hn⟩ := mem_erase he
    exact hn (h.filled _ ha)
  · intro e he a ha
    obtain ⟨as, has, hs, _⟩ := mem_erase he
    exact h.owned _ has a (hs.subset ha)

theorem Tidy.nodup_attributes {s : Scope} (h : Tidy s) (element : String) :
    ((s.attributes element).map Prod.fst).Nodup := by
  rw [attributes]
  cases hl : s.lookup element with
  | none => exact List.nodup_nil
  | some as => exact (h.sound _ ((lookup_eq_some_iff_mem h.once).mp hl)).nodup

theorem Tidy.value?_erase {s : Scope} (h : Tidy s) (setting t : Setting) :
    (s.erase setting).value? t = if t = setting then none else s.value? t := by
  rw [value?, value?, attributes_erase h.once]
  by_cases he : t.elementName = setting.elementName
  · rw [if_pos he, lookup_eraseAttribute (h.nodup_attributes _)]
    by_cases ha : t.attributeName = setting.attributeName
    · rw [if_pos ha, if_pos (Setting.eq_of_attributeName ha)]
    · rw [if_neg ha, if_neg (fun h => ha (congrArg _ h))]
  · rw [if_neg he, if_neg (fun h => he (congrArg _ h))]

theorem Tidy.value?_eq_some_iff {s : Scope} (h : Tidy s) {t : Setting} {value : String} :
    s.value? t = some value ↔
      ∃ as, (t.elementName, as) ∈ s ∧ (t.attributeName, value) ∈ as := by
  rw [value?, lookup_eq_some_iff_mem (h.nodup_attributes _), attributes]
  cases hl : s.lookup t.elementName with
  | none =>
    have hn : ∀ as, (t.elementName, as) ∉ s := fun as hm =>
      lookup_eq_none_iff_notMem.mp hl (List.mem_map_of_mem (f := Prod.fst) hm)
    simp [hn]
  | some as =>
    constructor
    · intro hm
      exact ⟨as, (lookup_eq_some_iff_mem h.once).mp hl, hm⟩
    · rintro ⟨bs, hb, hm⟩
      rw [(lookup_eq_some_iff_mem h.once).mpr hb] at hl
      exact Option.some.inj hl ▸ hm

/-- The elements are those for the values, each once, with the attributes for the values. -/
structure Shows (s : Scope) (value : Setting → Option String) : Prop where
  once : (s.map Prod.fst).Nodup
  only : ∀ e ∈ s, e.1 = "voice" ∨ e.1 = "prosody"
  voice : ∀ attributes, ("voice", attributes) ∈ s ↔
    ∃ tag, value .language = some tag ∧ attributes = [("xml:lang", tag)]
  prosody : (∃ attributes, ("prosody", attributes) ∈ s) ↔
    ∃ setting ∈ [Setting.pitch, .rate, .volume], value setting ≠ none
  attributes : ∀ attributes, ("prosody", attributes) ∈ s →
    (attributes.map Prod.fst).Nodup ∧
    ∀ name text, (name, text) ∈ attributes ↔
      ∃ setting ∈ [Setting.pitch, .rate, .volume],
        setting.attributeName = name ∧ value setting = some text

theorem elementName_eq_prosody_iff {t : Setting} :
    t.elementName = "prosody" ↔ t ∈ [Setting.pitch, .rate, .volume] := by
  cases t <;> decide

theorem elementName_eq_voice_iff {t : Setting} : t.elementName = "voice" ↔ t = .language := by
  cases t <;> decide

theorem Tidy.value?_of_mem {s : Scope} (h : Tidy s) {e : Enclosure} (he : e ∈ s)
    {a : Xml.Attribute} (ha : a ∈ e.2) :
    ∃ t : Setting, t.elementName = e.1 ∧ t.attributeName = a.1 ∧ s.value? t = some a.2 := by
  obtain ⟨t, hn, hm⟩ := h.owned e he a ha
  refine ⟨t, hn, hm, h.value?_eq_some_iff.mpr ⟨e.2, ?_, ?_⟩⟩
  · rwa [hn]
  · rwa [hm]

theorem Tidy.eq_of_voice {s : Scope} (h : Tidy s) {as : List Xml.Attribute}
    (hm : ("voice", as) ∈ s) : ∃ tag, s.value? .language = some tag ∧ as = [("xml:lang", tag)] := by
  have key : ∀ a ∈ as, a.1 = "xml:lang" ∧ s.value? .language = some a.2 := by
    intro a ha
    obtain ⟨t, hn, hk, hv⟩ := h.value?_of_mem hm ha
    rw [elementName_eq_voice_iff.mp hn] at hk hv
    exact ⟨hk.symm, hv⟩
  obtain ⟨a, rest, ha⟩ := List.exists_cons_of_ne_nil (h.filled _ hm)
  change as = a :: rest at ha
  rw [ha] at key
  obtain ⟨hk, hv⟩ := key a (.head _)
  have hrest : rest = [] := by
    cases rest with
    | nil => rfl
    | cons b rest =>
      have hd := (h.sound _ hm).nodup
      simp [ha, hk, (key b (.tail _ (.head _))).1] at hd
  exact ⟨a.2, hv, by rw [ha, hrest, ← hk]⟩

theorem Tidy.shows {s : Scope} (h : Tidy s) : Shows s s.value? := by
  refine ⟨h.once, ?_, ?_, ?_, ?_⟩
  · intro e he
    have := (h.sound e he).element
    simp only [List.mem_cons, List.not_mem_nil, or_false] at this
    exact this.symm
  · intro as
    constructor
    · exact h.eq_of_voice
    · rintro ⟨tag, ht, rfl⟩
      obtain ⟨bs, hb, _⟩ := h.value?_eq_some_iff.mp ht
      obtain ⟨tag', ht', rfl⟩ := h.eq_of_voice hb
      rw [ht] at ht'
      rw [Option.some.inj ht']
      exact hb
  · constructor
    · rintro ⟨as, hm⟩
      obtain ⟨a, _, ha⟩ := List.exists_cons_of_ne_nil (h.filled _ hm)
      obtain ⟨t, hn, _, hv⟩ := h.value?_of_mem hm (ha ▸ List.mem_cons_self)
      refine ⟨t, elementName_eq_prosody_iff.mp hn, ?_⟩
      rw [hv]
      simp
    · rintro ⟨t, ht, hv⟩
      obtain ⟨value, hv⟩ := Option.ne_none_iff_exists'.mp hv
      obtain ⟨as, hm, _⟩ := h.value?_eq_some_iff.mp hv
      exact ⟨as, elementName_eq_prosody_iff.mpr ht ▸ hm⟩
  · intro as hm
    refine ⟨(h.sound _ hm).nodup, ?_⟩
    intro name text
    constructor
    · intro ha
      obtain ⟨t, hn, hk, hv⟩ := h.value?_of_mem hm ha
      exact ⟨t, elementName_eq_prosody_iff.mp hn, hk, hv⟩
    · rintro ⟨t, ht, rfl, hv⟩
      obtain ⟨bs, hb, ha⟩ := h.value?_eq_some_iff.mp hv
      rw [elementName_eq_prosody_iff.mpr ht] at hb
      have hl := (lookup_eq_some_iff_mem h.once).mpr hb
      rw [(lookup_eq_some_iff_mem h.once).mpr hm] at hl
      exact Option.some.inj hl ▸ ha

end Scope

end SpeechBridge

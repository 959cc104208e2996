import SpeechBridge.Proofs.Elements

/-!
# The volumes of documents

Voices of the leveled kind have their volume from the document: the base, scaled by the last factor.
Factors know no upper bound. Main statement: everything that is spoken stands inside an element with
the volume for it, and all volumes of a document are percentages, exactly if those that something is
spoken at are.
-/
namespace SpeechBridge

open Xml (Markup Node Element)

def IsPercent (value : String) : Prop := ∃ n ≤ 100, value = n.repr

theorem repr_injective : Function.Injective Nat.repr := by
  intro n m h
  have hw : Numeral.write n = Numeral.write m := by
    rw [Numeral.write, ← Nat.toList_repr, h, Nat.toList_repr, Numeral.write]
  have hread := Numeral.readDigits_write n
  rw [hw, Numeral.readDigits_write] at hread
  exact (Option.some.inj hread).symm

theorem isPercent_repr_iff {n : Nat} : IsPercent n.repr ↔ n ≤ 100 := by
  constructor
  · rintro ⟨m, hm, hr⟩
    rwa [repr_injective hr]
  · intro hn
    exact ⟨n, hn, rfl⟩

namespace Converter

open SpeechItem (last factor? contexts)
open Xml.Markup

/-- The volume that the next item is spoken at. -/
def volumeAt (base : Volume) (before : List SpeechItem) : Nat :=
  (last (factor? .volume) before).elim base.value fun m => m.scale base.value

variable (language : String) (base : Volume)

theorem inEffect_volume (before : List SpeechItem) :
    inEffect ⟨language, .leveled base⟩ before .volume = some (volumeAt base before).repr := rfl

/-- Around an item the volume in effect is given, and no other one. -/
theorem volume_mem_scope_iff (before : List SpeechItem) {value : String} :
    (∃ enclosure ∈ (effectAfter ⟨language, .leveled base⟩ before).scope,
        ("volume", value) ∈ enclosure.2) ↔ value = (volumeAt base before).repr := by
  have ht := tidy_effectAfter ⟨language, .leveled base⟩ before
  have hv := value?_effectAfter ⟨language, .leveled base⟩ before .volume
  rw [inEffect_volume] at hv
  constructor
  · rintro ⟨enclosure, he, ha⟩
    obtain ⟨t, _, hn, hval⟩ := ht.value?_of_mem he ha
    obtain rfl : t = .volume := Setting.eq_of_attributeName hn
    exact Option.some.inj (hval.symm.trans hv)
  · rintro rfl
    obtain ⟨attributes, he, ha⟩ := ht.value?_eq_some_iff.mp hv
    exact ⟨_, he, ha⟩

theorem volume_notMem_markup (item : SpeechItem) (spelling : Bool) {e : Element}
    (he : e ∈ elementsAll (item.markup spelling)) (value : String) :
    ("volume", value) ∉ e.attributes := by
  have chars {cs : List Char} (hm : e ∈ elementsAll (cs.map .char)) : False := by
    rw [elementsAll_chars] at hm
    cases hm
  have single {name : String} {attributes : List Xml.Attribute} (cs : List Char)
      (ha : "volume" ∉ attributes.map Prod.fst)
      (hm : e ∈ elementsAll [.element name attributes (cs.map .char)]) :
      ("volume", value) ∉ e.attributes := by
    rcases mem_elementsAll_element.mp hm with rfl | hm
    · exact fun hv => ha (List.mem_map_of_mem (f := Prod.fst) hv)
    · exact (chars hm).elim
  cases item with
  | text content =>
    rw [SpeechItem.markup] at he
    split at he
    · exact single content.toList (by decide) he
    · exact (chars he).elim
  | index n => exact single [] (by simp) he
  | pause millis => exact single [] (by simp) he
  | phoneme ipa content => exact single content.toList (by simp) he
  | _ => cases he

/-- The volumes of a document are those that something is spoken at. -/
theorem volume_mem_document_iff (items : List SpeechItem) {value : String} :
    (∃ e ∈ elementsAll (document ⟨language, .leveled base⟩ items).seen,
        ("volume", value) ∈ e.attributes) ↔
      ∃ x ∈ contexts [] items, x.2.isSpoken = true ∧ value = (volumeAt base x.1).repr := by
  obtain ⟨stretches, hseen, hitems, hscope⟩ := exists_stretches ⟨language, .leveled base⟩ items
  have hmem (x : List SpeechItem × SpeechItem) :
      (∃ s ∈ stretches, x ∈ s.items) ↔ x ∈ contexts [] items ∧ x.2.isSpoken = true := by
    rw [← List.mem_flatMap, hitems, List.mem_filter]
  rw [hseen]
  constructor
  · rintro ⟨e, he, hv⟩
    rcases mem_elementsAll_element.mp he with rfl | he
    · simp [rootAttributes] at hv
    obtain ⟨s, hs, he⟩ := mem_elementsAll_flatMap.mp he
    obtain ⟨hsame, hne⟩ := hscope s hs
    rcases mem_elementsAll_enclose.mp he with ⟨enclosure, inner, hi, rfl⟩ | he
    · have hfirst : enclosure ∈ s.scope := hi.subset List.mem_cons_self
      have hitem : s.items ≠ [] := by
        apply hne.resolve_left
        intro hn
        rw [hn] at hfirst
        cases hfirst
      obtain ⟨x, hx⟩ := List.exists_mem_of_ne_nil _ hitem
      obtain ⟨hc, hspoken⟩ := (hmem x).mp ⟨s, hs, hx⟩
      refine ⟨x, hc, hspoken, (volume_mem_scope_iff language base x.1).mp ?_⟩
      exact ⟨enclosure, hsame x hx ▸ hfirst, hv⟩
    · obtain ⟨x, _, he⟩ := mem_elementsAll_flatMap.mp he
      exact absurd hv (volume_notMem_markup _ _ he value)
  · rintro ⟨x, hc, hspoken, hvalue⟩
    obtain ⟨s, hs, hx⟩ := (hmem x).mpr ⟨hc, hspoken⟩
    obtain ⟨enclosure, he, hv⟩ := (volume_mem_scope_iff language base x.1).mpr hvalue
    rw [← (hscope s hs).1 x hx] at he
    obtain ⟨outer, inner, ho⟩ := List.append_of_mem he
    have hinner : (enclosure :: inner) <:+ s.scope := ⟨outer, ho.symm⟩
    have hmarkup : _ ∈ elementsAll (s.markup ⟨language, .leveled base⟩) :=
      mem_elementsAll_enclose.mpr (.inl ⟨enclosure, inner, hinner, rfl⟩)
    exact ⟨_, mem_elementsAll_element.mpr (.inr (mem_elementsAll_flatMap.mpr ⟨s, hs, hmarkup⟩)), hv⟩

/-- Each spoken item stands inside an element of prosody with the volume for it, and the volumes of
a document are percentages, exactly if the base, scaled by the factor of the moment, is one wherever
something is spoken. -/
theorem volumes_percent_iff (items : List SpeechItem) :
    ∃ (attributes : List Xml.Attribute) (stretches : List Stretch) (document : List Markup),
      document = [.element "speak" attributes
        (stretches.flatMap (Stretch.markup ⟨language, .leveled base⟩))] ∧
      Xml.parse (convert ⟨language, .leveled base⟩ items).toList = some document ∧
      stretches.flatMap Stretch.items = (contexts [] items).filter (·.2.isSpoken) ∧
      (∀ s ∈ stretches, ∀ x ∈ s.items, ∃ prosody, ("prosody", prosody) ∈ s.scope ∧
        ("volume", (volumeAt base x.1).repr) ∈ prosody) ∧
      ((∀ e ∈ elementsAll document, ∀ value, ("volume", value) ∈ e.attributes → IsPercent value) ↔
        ∀ x ∈ contexts [] items, x.2.isSpoken = true → volumeAt base x.1 ≤ 100) := by
  obtain ⟨stretches, hseen, hitems, hscope⟩ := exists_stretches ⟨language, .leveled base⟩ items
  refine ⟨_, stretches, _, hseen, parse_convert_eq_seen _ items, hitems, ?_, ?_⟩
  · intro s hs x hx
    rw [(hscope s hs).1 x hx]
    have ht := tidy_effectAfter ⟨language, .leveled base⟩ x.1
    exact ht.value?_eq_some_iff.mp (value?_effectAfter ⟨language, .leveled base⟩ x.1 .volume)
  · constructor
    · intro h x hx hs
      obtain ⟨e, he, hv⟩ := (volume_mem_document_iff language base items).mpr ⟨x, hx, hs, rfl⟩
      exact isPercent_repr_iff.mp (h e he _ hv)
    · intro h e he value hv
      obtain ⟨x, hx, hs, rfl⟩ := (volume_mem_document_iff language base items).mp ⟨e, he, hv⟩
      exact isPercent_repr_iff.mpr (h x hx hs)

/-- Twice the full volume is more than a percentage. -/
theorem doubled_volume :
    ∃ document, Xml.parse (convert ⟨"en", .leveled (.clamp 100)⟩
        [.volume (.ofBits 0x4000000000000000), .text "a"]).toList = some document ∧
      ∃ e ∈ elementsAll document,
        ∃ value, ("volume", value) ∈ e.attributes ∧ ¬ IsPercent value := by
  refine ⟨_, parse_convert_eq_seen _ _, ?_⟩
  have hloud : volumeAt (.clamp 100) [.volume (.ofBits 0x4000000000000000)] = 200 := by
    decide +kernel
  have hspoken : ([.volume (.ofBits 0x4000000000000000)], .text "a") ∈
      contexts [] [.volume (.ofBits 0x4000000000000000), .text "a"] := by
    simp [contexts]
  obtain ⟨e, he, hv⟩ := (volume_mem_document_iff "en" (.clamp 100) _).mpr
    ⟨_, hspoken, rfl, rfl⟩
  rw [hloud] at hv
  refine ⟨e, he, _, hv, ?_⟩
  rw [isPercent_repr_iff]
  decide

end Converter

end SpeechBridge

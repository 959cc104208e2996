import SpeechBridge.Proofs.Passages
import SpeechBridge.Proofs.Reading

/-!
# The markup of documents

Settings, and the mode that spells texts out, only ever put elements around what is spoken. Main
statement: a document read without these elements is what its sequence asks for, in order.
-/
namespace SpeechBridge

open Xml (Markup Node IsName)

namespace Xml.Markup

mutual

/-- Takes away the elements of the given names, and leaves what is inside them. -/
def unwrap (names : List String) : Markup → List Markup
  | .char c => [.char c]
  | .element name attributes content =>
    if name ∈ names then unwrapAll names content else [.element name attributes content]

def unwrapAll (names : List String) : List Markup → List Markup
  | [] => []
  | m :: ms => unwrap names m ++ unwrapAll names ms

end

theorem unwrapAll_append (names : List String) (a b : List Markup) :
    unwrapAll names (a ++ b) = unwrapAll names a ++ unwrapAll names b := by
  induction a with
  | nil => rfl
  | cons m ms ih => simp [unwrapAll, ih]

theorem unwrapAll_chars (names : List String) (cs : List Char) :
    unwrapAll names (cs.map .char) = cs.map .char := by
  induction cs with
  | nil => rfl
  | cons c cs ih => simp [unwrapAll, unwrap, ih]

theorem unwrapAll_element_of_mem {names : List String} {name : String} (h : name ∈ names)
    (attributes : List Attribute) (content : List Markup) :
    unwrapAll names [.element name attributes content] = unwrapAll names content := by
  rw [unwrapAll, unwrap, if_pos h, unwrapAll, List.append_nil]

theorem unwrapAll_element_of_notMem {names : List String} {name : String} (h : name ∉ names)
    (attributes : List Attribute) (content : List Markup) :
    unwrapAll names [.element name attributes content] = [.element name attributes content] := by
  rw [unwrapAll, unwrap, if_neg h, unwrapAll, List.append_nil]

end Xml.Markup

/-- What an item asks to have in the document. -/
def SpeechItem.written : SpeechItem → List Markup
  | text content => content.toList.map .char
  | index n => [.element "mark" [("name", n.toNat.repr)] []]
  | pause millis => [.element "break" [("time", millis.toNat.repr ++ "ms")] []]
  | phoneme ipa content =>
    [.element "phoneme" [("alphabet", "ipa"), ("ph", ipa)] (content.toList.map .char)]
  | _ => []

/-- The elements that settings and spelling out put around what is spoken. -/
def wrappers : List String := ["prosody", "voice", "say-as"]

/-- The nodes are read back as the content, once unwrapped. -/
structure Carries (nodes : List Node) (content : List Markup) : Prop where
  proper : Node.AllProper nodes
  unwrapped : Markup.unwrapAll wrappers (Node.seenAll nodes) = content

namespace Carries

theorem nil : Carries [] [] := ⟨trivial, rfl⟩

theorem append {a b : List Node} {x y : List Markup} (ha : Carries a x) (hb : Carries b y) :
    Carries (a ++ b) (x ++ y) := by
  refine ⟨Node.allProper_append.mpr ⟨ha.proper, hb.proper⟩, ?_⟩
  rw [Node.seenAll_append, Markup.unwrapAll_append, ha.unwrapped, hb.unwrapped]

theorem split {a b : List Node} {content : List Markup} (h : Carries (a ++ b) content) :
    ∃ x y, Carries a x ∧ Carries b y ∧ content = x ++ y := by
  obtain ⟨ha, hb⟩ := Node.allProper_append.mp h.proper
  refine ⟨_, _, ⟨ha, rfl⟩, ⟨hb, rfl⟩, ?_⟩
  rw [← h.unwrapped, Node.seenAll_append, Markup.unwrapAll_append]

theorem text (content : String) : Carries [.text content] (content.toList.map .char) := by
  refine ⟨⟨trivial, trivial⟩, ?_⟩
  rw [Node.seenAll, Node.seen, Node.seenAll, List.append_nil, Markup.unwrapAll_chars]

theorem wrapped {name : String} {attributes : List Xml.Attribute} {nodes : List Node}
    {content : List Markup} (hm : name ∈ wrappers) (hn : IsName name)
    (ha : ∀ a ∈ attributes, IsName a.1) (hd : (attributes.map Prod.fst).Nodup)
    (h : Carries nodes content) : Carries [.element name attributes nodes] content := by
  refine ⟨⟨⟨hn, ha, hd, h.proper⟩, trivial⟩, ?_⟩
  rw [Node.seenAll, Node.seen, Node.seenAll, List.append_nil,
    Markup.unwrapAll_element_of_mem hm, h.unwrapped]

theorem element (name : String) (attributes : List Xml.Attribute) (nodes : List Node)
    (hm : name ∉ wrappers) (hn : IsName name) (ha : ∀ a ∈ attributes, IsName a.1)
    (hd : (attributes.map Prod.fst).Nodup) (h : Node.AllProper nodes) :
    Carries [.element name attributes nodes]
      [.element name attributes (Node.seenAll nodes)] := by
  refine ⟨⟨⟨hn, ha, hd, h⟩, trivial⟩, ?_⟩
  rw [Node.seenAll, Node.seen, Node.seenAll, List.append_nil,
    Markup.unwrapAll_element_of_notMem hm]

end Carries

namespace Scope

theorem name_putAttribute (name value : String) (attributes : List Xml.Attribute) :
    (putAttribute name value attributes).map Prod.fst =
      if name ∈ attributes.map Prod.fst then attributes.map Prod.fst
      else attributes.map Prod.fst ++ [name] := by
  induction attributes with
  | nil => rfl
  | cons a as ih =>
    rw [putAttribute]
    by_cases h : a.1 = name
    · simp [h]
    · rw [if_neg h, List.map_cons, List.map_cons, ih]
      simp only [List.mem_cons, Ne.symm h, false_or]
      split <;> rfl

structure SoundElement (e : Enclosure) : Prop where
  element : e.1 ∈ ["prosody", "voice"]
  names : ∀ name ∈ e.2.map Prod.fst, IsName name
  nodup : (e.2.map Prod.fst).Nodup

def Sound (s : Scope) : Prop := ∀ e ∈ s, SoundElement e

theorem elementName_mem (setting : Setting) :
    setting.elementName ∈ ["prosody", "voice"] := by
  cases setting <;> decide

theorem isName_attributeName (setting : Setting) : IsName setting.attributeName := by
  cases setting <;> decide

theorem SoundElement.putAttribute {e : Enclosure} (h : SoundElement e) (setting : Setting)
    (value : String) :
    SoundElement (e.1, Scope.putAttribute setting.attributeName value e.2) := by
  by_cases hm : setting.attributeName ∈ e.2.map Prod.fst
  · have hn := (name_putAttribute setting.attributeName value e.2).trans (if_pos hm)
    exact ⟨h.element, hn ▸ h.names, hn ▸ h.nodup⟩
  · have hn := (name_putAttribute setting.attributeName value e.2).trans (if_neg hm)
    refine ⟨h.element, ?_, ?_⟩
    · intro name hname
      rw [hn] at hname
      rcases List.mem_append.mp hname with hname | hname
      · exact h.names name hname
      · rw [List.mem_singleton.mp hname]
        exact isName_attributeName setting
    · rw [hn, List.nodup_append]
      refine ⟨h.nodup, by simp, ?_⟩
      intro a ha b hb hab
      rw [hab, List.mem_singleton.mp hb] at ha
      exact hm ha

theorem SoundElement.wraps {e : Enclosure} (h : SoundElement e) :
    e.1 ∈ wrappers ∧ IsName e.1 := by
  rcases List.mem_cons.mp h.element with hp | hv
  · rw [hp]
    decide
  · rw [List.mem_singleton.mp hv]
    decide

theorem Sound.put {s : Scope} (h : Sound s) (setting : Setting) (value : String) :
    Sound (s.put setting value) := by
  induction s with
  | nil =>
    intro e he
    rw [Scope.put, List.mem_singleton] at he
    rw [he]
    refine ⟨elementName_mem setting, ?_, by simp⟩
    intro name hname
    rw [List.map_singleton, List.mem_singleton] at hname
    rw [hname]
    exact isName_attributeName setting
  | cons e es ih =>
    obtain ⟨he, hes⟩ := List.forall_mem_cons.mp h
    rw [Scope.put]
    split
    · exact List.forall_mem_cons.mpr ⟨he.putAttribute setting value, hes⟩
    · exact List.forall_mem_cons.mpr ⟨he, ih hes⟩

theorem Sound.erase {s : Scope} (h : Sound s) (setting : Setting) :
    Sound (s.erase setting) := by
  induction s with
  | nil => exact h
  | cons e es ih =>
    obtain ⟨he, hes⟩ := List.forall_mem_cons.mp h
    rw [Scope.erase]
    split
    · split
      · exact hes
      next hne =>
        have hs := (e.2.eraseP_sublist (p := (·.1 == setting.attributeName))).map Prod.fst
        refine List.forall_mem_cons.mpr ⟨⟨he.element, ?_, he.nodup.sublist hs⟩, hes⟩
        intro name hname
        exact he.names name (hs.subset hname)
    · exact List.forall_mem_cons.mpr ⟨he, ih hes⟩

theorem Sound.wrap {s : Scope} (h : Sound s) {nodes : List Node} {content : List Markup}
    (hc : Carries nodes content) : Carries (s.wrap nodes) content := by
  induction s with
  | nil => exact hc
  | cons e es ih =>
    obtain ⟨he, hes⟩ := List.forall_mem_cons.mp h
    obtain ⟨hm, hn⟩ := he.wraps
    have ha : ∀ a ∈ e.2, IsName a.1 := fun a h => he.names a.1 (List.mem_map_of_mem h)
    exact .wrapped hm hn ha he.nodup (ih hes)

end Scope

namespace Effect

theorem sound_set {e : Effect} (h : e.scope.Sound) (setting : Setting) (value : String) :
    (e.set setting value).scope.Sound := by
  rw [set]
  split
  · exact h
  · exact h.put setting value

theorem sound_clear {e : Effect} (h : e.scope.Sound) (setting : Setting) :
    (e.clear setting).scope.Sound := by
  rw [clear]
  split
  · exact h
  · exact h.erase setting

end Effect

namespace Converter

theorem sound_relative {e : Effect} (h : e.scope.Sound) (setting : Setting) (m : Multiplier) :
    (relative e setting m).scope.Sound := by
  rw [relative]
  split
  · exact Effect.sound_clear h setting
  · exact Effect.sound_set h setting _

theorem sound_start (c : Converter) : c.start.scope.Sound := by
  have h : Scope.Sound Effect.initial.scope := fun e he => by cases he
  rw [start]
  split
  · exact h
  · exact Effect.sound_set h .volume _

theorem sound_adjust (c : Converter) {e : Effect} (h : e.scope.Sound) (item : SpeechItem) :
    (c.adjust e item).scope.Sound := by
  cases item with
  | characterMode on =>
    rw [adjust]
    split
    · exact h
    · exact h
  | language tag => exact Effect.sound_set h .language _
  | pitch m => exact sound_relative h .pitch m
  | rate m => exact sound_relative h .rate m
  | volume m =>
    rw [adjust]
    split
    · exact sound_relative h .volume m
    · exact Effect.sound_set h .volume _
  | _ => exact h

theorem carries_spoken (spelling : Bool) (item : SpeechItem) :
    Carries (spoken spelling item) item.written := by
  cases item with
  | text content =>
    rw [spoken]
    split
    next h =>
      rw [h]
      exact .nil
    split
    · exact .wrapped (by decide) (by decide) (by decide) (by decide) (.text content)
    · exact .text content
  | index n => exact .element _ _ _ (by decide) (by decide) (by simp; decide) (by simp) trivial
  | pause millis => exact .element _ _ _ (by decide) (by decide) (by simp; decide) (by simp) trivial
  | phoneme ipa text =>
    have h := Carries.element "phoneme" [("alphabet", "ipa"), ("ph", ipa)] [.text text]
      (by decide) (by decide) (by simp; decide) (by simp) ⟨trivial, trivial⟩
    rwa [Node.seenAll, Node.seen, Node.seenAll, List.append_nil] at h
  | _ => exact .nil

theorem written_of_not_spoken {item : SpeechItem} (h : item.isSpoken = false) :
    item.written = [] := by
  cases item with
  | text content => cases h
  | index n => cases h
  | pause millis => cases h
  | phoneme ipa text => cases h
  | _ => rfl

/-- The passages carry what the items ask for: opening one closes and opens elements of its scope,
but neither loses nor repeats what is inside. -/
theorem carries_passages (c : Converter) {e : Effect} (h : e.scope.Sound)
    (items : List SpeechItem) :
    Carries ((c.passages e items).1 ++ (c.passages e items).2.flatMap Passage.nodes)
      (items.flatMap SpeechItem.written) := by
  induction items generalizing e with
  | nil => exact .nil
  | cons item items ih =>
    rw [List.flatMap_cons]
    cases hs : item.isSpoken with
    | false =>
      rw [c.passages_of_setting e hs, written_of_not_spoken hs]
      exact ih (c.sound_adjust h item)
    | true =>
      obtain ⟨x, y, hx, hy, hxy⟩ := (ih (e := { e with changed := false }) h).split
      have hcontent := (carries_spoken e.spelling item).append hx
      rw [hxy, ← List.append_assoc]
      cases hc : e.changed with
      | true =>
        rw [c.passages_of_changed hs hc, List.nil_append, List.flatMap_cons]
        exact (h.wrap hcontent).append hy
      | false =>
        rw [c.passages_of_unchanged hs hc]
        exact hcontent.append hy

theorem parse_convert_eq_seen (c : Converter) (items : List SpeechItem) :
    Xml.parse (c.convert items).toList = some (c.document items).seen := by
  have hp : (c.document items).Proper :=
    ⟨by decide, by simp [rootAttributes]; decide, by simp [rootAttributes],
      (c.carries_passages c.sound_start items).proper⟩
  rw [convert_eq, Node.toString, String.toList_ofList, Node.parse_render hp]

/-- Every document is read back as one element for the given language, with hyphens for underscores,
which holds what the items ask for in their order, and around that nothing but elements of settings
and of spelling out. -/
theorem markup_integrity (c : Converter) (items : List SpeechItem) :
    ∃ attributes content,
      Xml.parse (c.convert items).toList = some [.element "speak" attributes content] ∧
      attributes.lookup "xml:lang" =
        some (String.ofList (c.language.toList.map fun ch => if ch = '_' then '-' else ch)) ∧
      Markup.unwrapAll wrappers content = items.flatMap SpeechItem.written := by
  have h := carries_passages c c.sound_start items
  refine ⟨c.rootAttributes, _, ?_, rfl, h.unwrapped⟩
  rw [parse_convert_eq_seen]
  rfl

end Converter

end SpeechBridge

import SpeechBridge.Proofs.Stretches

/-!
# The elements of documents

All elements of a document, at any depth, and what is inside each. Main statements: which elements
a scope puts around a content, and when each of these has something to speak inside.
-/
namespace SpeechBridge

open Xml (Markup Node)

namespace Xml

theorem Node.seenAll_flatMap {α : Type} (f : α → List Node) (xs : List α) :
    Node.seenAll (xs.flatMap f) = xs.flatMap fun x => Node.seenAll (f x) := by
  induction xs with
  | nil => rfl
  | cons x xs ih => simp [Node.seenAll_append, ih]

structure Element where
  name : String
  attributes : List Attribute
  content : List Markup

/-- Elements that are spoken or mark a place in speech. -/
def voiced : List String := ["mark", "break", "phoneme"]

namespace Markup

mutual

def elements : Markup → List Element
  | .char _ => []
  | .element name attributes content => ⟨name, attributes, content⟩ :: elementsAll content

def elementsAll : List Markup → List Element
  | [] => []
  | m :: ms => elements m ++ elementsAll ms

end

mutual

/-- Whether there is anything to speak, at any depth: character data or a voiced element. -/
def heard : Markup → Bool
  | .char _ => true
  | .element name _ content => decide (name ∈ voiced) || heardAll content

def heardAll : List Markup → Bool
  | [] => false
  | m :: ms => heard m || heardAll ms

end

/-- Every element of settings, and every one that spells out, has something to speak inside. -/
def Filled (ms : List Markup) : Prop :=
  ∀ e ∈ elementsAll ms, e.name ∈ wrappers → heardAll e.content = true

instance (ms : List Markup) : Decidable (Filled ms) :=
  inferInstanceAs (Decidable (∀ _ ∈ _, _ → _))

variable {e : Element}

theorem elementsAll_append (a b : List Markup) :
    elementsAll (a ++ b) = elementsAll a ++ elementsAll b := by
  induction a with
  | nil => rfl
  | cons m ms ih => simp [elementsAll, ih]

theorem elementsAll_chars (cs : List Char) : elementsAll (cs.map .char) = [] := by
  induction cs with
  | nil => rfl
  | cons c cs ih => simp [elementsAll, elements, ih]

theorem mem_elementsAll_element {name : String} {attributes : List Attribute}
    {content : List Markup} :
    e ∈ elementsAll [.element name attributes content] ↔
      e = ⟨name, attributes, content⟩ ∨ e ∈ elementsAll content := by
  simp [elementsAll, elements]

theorem mem_elementsAll_flatMap {α : Type} {f : α → List Markup} {xs : List α} :
    e ∈ elementsAll (xs.flatMap f) ↔ ∃ x ∈ xs, e ∈ elementsAll (f x) := by
  induction xs with
  | nil => simp [elementsAll]
  | cons x xs ih => simp [elementsAll_append, ih]

theorem mem_elementsAll_enclose {s : Scope} {content : List Markup} :
    e ∈ elementsAll (s.enclose content) ↔
      (∃ enclosure inner, (enclosure :: inner) <:+ s ∧
        e = ⟨enclosure.1, enclosure.2, Scope.enclose inner content⟩) ∨
      e ∈ elementsAll content := by
  induction s with
  | nil => simp [Scope.enclose]
  | cons f fs ih =>
    have hf : Scope.enclose (f :: fs) content = [.element f.1 f.2 (Scope.enclose fs content)] := rfl
    rw [hf, mem_elementsAll_element, ih, ← or_assoc]
    apply or_congr_left
    constructor
    · rintro (rfl | ⟨enclosure, inner, hs, he⟩)
      · exact ⟨f, fs, List.suffix_refl _, rfl⟩
      · exact ⟨enclosure, inner, hs.trans (List.suffix_cons f fs), he⟩
    · rintro ⟨enclosure, inner, hs, rfl⟩
      rcases List.suffix_cons_iff.mp hs with hs | hs
      · obtain ⟨rfl, rfl⟩ := List.cons.inj hs
        exact .inl rfl
      · exact .inr ⟨enclosure, inner, hs, rfl⟩

theorem heardAll_append (a b : List Markup) : heardAll (a ++ b) = (heardAll a || heardAll b) := by
  induction a with
  | nil => rfl
  | cons m ms ih => simp [heardAll, ih, Bool.or_assoc]

theorem heardAll_chars (cs : List Char) : heardAll (cs.map .char) = !cs.isEmpty := by
  cases cs <;> simp [heardAll, heard]

theorem heardAll_enclose {s : Scope} (h : s.Sound) (content : List Markup) :
    heardAll (s.enclose content) = heardAll content := by
  induction s with
  | nil => rfl
  | cons f fs ih =>
    obtain ⟨hf, hfs⟩ := List.forall_mem_cons.mp h
    have hn : f.1 ∉ voiced := by
      have hm := hf.element
      simp only [List.mem_cons, List.not_mem_nil, or_false] at hm
      rcases hm with hm | hm <;> simp [hm, voiced]
    have he : Scope.enclose (f :: fs) content = [.element f.1 f.2 (Scope.enclose fs content)] := rfl
    simp [he, heardAll, heard, hn, ih hfs]

theorem filled_append {a b : List Markup} : Filled (a ++ b) ↔ Filled a ∧ Filled b := by
  simp only [Filled, elementsAll_append, List.forall_mem_append]

theorem filled_element_of_notMem {name : String} (h : name ∉ wrappers)
    {attributes : List Attribute} {content : List Markup} :
    Filled [.element name attributes content] ↔ Filled content := by
  constructor
  · intro hf e he
    exact hf e (mem_elementsAll_element.mpr (.inr he))
  · intro hf e he hw
    rcases mem_elementsAll_element.mp he with rfl | he
    · exact absurd hw h
    · exact hf e he hw

theorem filled_flatMap {α : Type} {f : α → List Markup} {xs : List α} :
    Filled (xs.flatMap f) ↔ ∀ x ∈ xs, Filled (f x) := by
  constructor
  · intro h x hx e he
    exact h e (mem_elementsAll_flatMap.mpr ⟨x, hx, he⟩)
  · intro h e he
    obtain ⟨x, hx, he⟩ := mem_elementsAll_flatMap.mp he
    exact h x hx e he

theorem filled_enclose {s : Scope} (h : s.Sound) {content : List Markup} :
    Filled (s.enclose content) ↔ (s = [] ∨ heardAll content = true) ∧ Filled content := by
  constructor
  · intro hf
    refine ⟨?_, fun e he => hf e (mem_elementsAll_enclose.mpr (.inr he))⟩
    cases s with
    | nil => exact .inl rfl
    | cons f fs =>
      have hfirst := hf _ (mem_elementsAll_enclose.mpr (.inl ⟨f, fs, List.suffix_refl _, rfl⟩))
      have hw := (h f List.mem_cons_self).wraps.1
      exact .inr (heardAll_enclose (fun g hg => h g (.tail _ hg)) content ▸ hfirst hw)
  · rintro ⟨hs, hf⟩ e he hw
    rcases mem_elementsAll_enclose.mp he with ⟨enclosure, inner, hi, rfl⟩ | he
    · have hin : Scope.Sound inner := fun g hg => h g (hi.subset (.tail _ hg))
      rw [heardAll_enclose hin]
      apply hs.resolve_left
      rintro rfl
      cases List.suffix_nil.mp hi
    · exact hf e he hw

end Markup

end Xml

end SpeechBridge

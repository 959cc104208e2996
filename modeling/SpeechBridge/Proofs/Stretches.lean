import Mathlib.Data.List.Induction
import SpeechBridge.Proofs.Scopes

/-!
# Settings in effect

What is in effect at a place of a sequence is read off the last change of each kind before it.
Main statement: a document is a row of stretches, each a nest of elements that shows what is in
effect for every item inside.
-/
namespace SpeechBridge

open Xml (Markup Node)

namespace SpeechItem

def factor? : Setting → SpeechItem → Option Multiplier
  | .pitch, .pitch m | .rate, .rate m | .volume, .volume m => some m
  | _, _ => none

def tag? : SpeechItem → Option (Option String)
  | language tag => some tag
  | _ => none

def spelling? : SpeechItem → Option Bool
  | characterMode on => some on
  | _ => none

/-- What is read off the last item of a kind. -/
def last {α : Type} (read : SpeechItem → Option α) (items : List SpeechItem) : Option α :=
  (items.filterMap read).getLast?

theorem last_append {α : Type} (read : SpeechItem → Option α) (items : List SpeechItem)
    (item : SpeechItem) : last read (items ++ [item]) = (read item).or (last read items) := by
  rw [last, List.filterMap_append, List.getLast?_append, last]
  cases h : read item <;> simp [h]

/-- The items, each with those before it. -/
def contexts (before : List SpeechItem) : List SpeechItem → List (List SpeechItem × SpeechItem)
  | [] => []
  | item :: items => (before, item) :: contexts (before ++ [item]) items

end SpeechItem

namespace Converter

open SpeechItem (last last_append factor? tag? spelling? contexts)

/-- A factor on a normal value, unless it restores that. -/
def relativeValue (before : List SpeechItem) (setting : Setting) : Option String :=
  (last (factor? setting) before).bind fun m =>
    if m.isNormal then none else some (m.percent.repr ++ "%")

/-- The value of a setting, if it is in effect behind the items. A language has hyphens where its
tag has underscores. -/
def inEffect (c : Converter) (before : List SpeechItem) : Setting → Option String
  | .language => (last tag? before).map fun tag =>
    String.ofList ((tag.getD c.language).toList.map fun ch => if ch = '_' then '-' else ch)
  | .pitch => relativeValue before .pitch
  | .rate => relativeValue before .rate
  | .volume =>
    match c.dialect with
    | .standard => relativeValue before .volume
    | .leveled base =>
      some ((last (factor? .volume) before).elim base.value fun m => m.scale base.value).repr

/-- Whether texts are spelled out, which only standard documents do. -/
def spells (c : Converter) (before : List SpeechItem) : Bool :=
  match c.dialect with
  | .standard => (last spelling? before).getD false
  | .leveled _ => false

def effectAfter (c : Converter) (before : List SpeechItem) : Effect := before.foldl c.adjust c.start

end Converter

namespace Effect

open Scope (Tidy)

theorem tidy_set {e : Effect} (h : e.scope.Tidy) (setting : Setting) (value : String) :
    (e.set setting value).scope.Tidy := by
  rw [set]
  split
  · exact h
  · exact h.put setting value

theorem tidy_clear {e : Effect} (h : e.scope.Tidy) (setting : Setting) :
    (e.clear setting).scope.Tidy := by
  rw [clear]
  split
  · exact h
  · exact h.erase setting

theorem value?_set (e : Effect) (setting : Setting) (value : String) (t : Setting) :
    (e.set setting value).scope.value? t = if t = setting then some value else e.scope.value? t := by
  rw [set]
  split
  next h =>
    by_cases ht : t = setting
    · rw [if_pos ht, ht, h]
    · rw [if_neg ht]
  · exact Scope.value?_put _ _ _ _

theorem value?_clear {e : Effect} (h : e.scope.Tidy) (setting t : Setting) :
    (e.clear setting).scope.value? t = if t = setting then none else e.scope.value? t := by
  rw [clear]
  split
  next hn =>
    by_cases ht : t = setting
    · rw [if_pos ht, ht, hn]
    · rw [if_neg ht]
  · exact h.value?_erase setting t

end Effect

namespace Converter

open Scope (Tidy)
open SpeechItem (last last_append factor? tag? spelling? contexts)

theorem tidy_relative {e : Effect} (h : e.scope.Tidy) (setting : Setting) (m : Multiplier) :
    (relative e setting m).scope.Tidy := by
  rw [relative]
  split
  · exact Effect.tidy_clear h setting
  · exact Effect.tidy_set h setting _

theorem tidy_adjust (c : Converter) {e : Effect} (h : e.scope.Tidy) (item : SpeechItem) :
    (c.adjust e item).scope.Tidy := by
  cases item with
  | characterMode on =>
    rw [adjust]
    split
    · exact h
    · exact h
  | language tag => exact Effect.tidy_set h .language _
  | pitch m => exact tidy_relative h .pitch m
  | rate m => exact tidy_relative h .rate m
  | volume m =>
    rw [adjust]
    split
    · exact tidy_relative h .volume m
    · exact Effect.tidy_set h .volume _
  | _ => exact h

theorem value?_relative {e : Effect} (h : e.scope.Tidy) (setting : Setting) (m : Multiplier)
    (t : Setting) :
    (relative e setting m).scope.value? t =
      if t = setting then (if m.isNormal then none else some (percentText m))
      else e.scope.value? t := by
  rw [relative]
  split
  · exact Effect.value?_clear h setting t
  · exact Effect.value?_set e setting _ t

theorem effectAfter_append (c : Converter) (before : List SpeechItem) (item : SpeechItem) :
    c.effectAfter (before ++ [item]) = c.adjust (c.effectAfter before) item := by
  rw [effectAfter, List.foldl_append]
  rfl

theorem tidy_effectAfter (c : Converter) (before : List SpeechItem) :
    (c.effectAfter before).scope.Tidy := by
  refine List.reverseRecOn before ?_ fun before item ih => ?_
  · have h : Tidy Effect.initial.scope := .nil
    show c.start.scope.Tidy
    rw [start]
    split
    · exact h
    · exact Effect.tidy_set h .volume _
  · rw [effectAfter_append]
    exact c.tidy_adjust ih item

theorem percentText_eq (m : Multiplier) : percentText m = m.percent.repr ++ "%" := by
  rw [percentText, String.ofList_append]
  congr 1
  cases m.percent with
  | ofNat n => rfl
  | negSucc n =>
    apply String.toList_injective
    simp [Numeral.writeInt, Int.repr, Numeral.write, Nat.toList_repr]

theorem decimal_eq (n : Nat) : decimal n = n.repr := rfl

theorem value?_start (c : Converter) (t : Setting) : c.start.scope.value? t = c.inEffect [] t := by
  have h : ∀ t, Effect.initial.scope.value? t = none := fun _ => rfl
  cases hd : c.dialect with
  | standard =>
    rw [start, hd]
    cases t <;> simp [inEffect, relativeValue, last, hd, h]
  | leveled base =>
    rw [start, hd, Effect.value?_set, h]
    cases t <;> simp [inEffect, relativeValue, last, hd, decimal_eq]

/-- An item that says nothing of settings leaves them as they were. -/
theorem scope_adjust_of_none (c : Converter) (e : Effect) {item : SpeechItem}
    (ht : tag? item = none) (hf : ∀ t, factor? t item = none) :
    (c.adjust e item).scope = e.scope := by
  cases item with
  | language tag => cases ht
  | pitch m => cases hf .pitch
  | rate m => cases hf .rate
  | volume m => cases hf .volume
  | characterMode on =>
    rw [adjust]
    split <;> rfl
  | _ => rfl

theorem inEffect_append_of_none (c : Converter) (before : List SpeechItem) {item : SpeechItem}
    (ht : tag? item = none) (hf : ∀ t, factor? t item = none) (t : Setting) :
    c.inEffect (before ++ [item]) t = c.inEffect before t := by
  cases t <;> simp only [inEffect, relativeValue, last_append, ht, hf, Option.none_or]

/-- What is in effect is what the elements of the scope say. -/
theorem value?_effectAfter (c : Converter) (before : List SpeechItem) (t : Setting) :
    (c.effectAfter before).scope.value? t = c.inEffect before t := by
  induction before using List.reverseRecOn generalizing t with
  | nil => exact c.value?_start t
  | append_singleton before item ih =>
    have h := c.tidy_effectAfter before
    have silent (ht : tag? item = none) (hf : ∀ t, factor? t item = none) :
        (c.adjust (c.effectAfter before) item).scope.value? t =
          c.inEffect (before ++ [item]) t := by
      rw [c.scope_adjust_of_none _ ht hf, ih, c.inEffect_append_of_none before ht hf]
    rw [effectAfter_append]
    cases item with
    | language tag =>
      rw [adjust, Effect.value?_set, ih]
      cases t <;> simp [inEffect, relativeValue, last_append, factor?, tag?, hyphenate]
    | pitch m | rate m =>
      rw [adjust, value?_relative h, ih]
      cases t <;> simp [inEffect, relativeValue, last_append, factor?, tag?, percentText_eq]
    | volume m =>
      rw [adjust]
      cases hd : c.dialect with
      | standard =>
        simp only [value?_relative h, ih]
        cases t <;> simp [inEffect, relativeValue, last_append, factor?, tag?, hd, percentText_eq]
      | leveled base =>
        simp only [Effect.value?_set, ih]
        cases t <;> simp [inEffect, relativeValue, last_append, factor?, tag?, hd, decimal_eq]
    | _ => exact silent rfl fun t => by cases t <;> rfl

theorem spelling_set (e : Effect) (setting : Setting) (value : String) :
    (e.set setting value).spelling = e.spelling := by
  rw [Effect.set]
  split <;> rfl

theorem spelling_relative (e : Effect) (setting : Setting) (m : Multiplier) :
    (relative e setting m).spelling = e.spelling := by
  rw [relative, Effect.clear]
  split
  · split <;> rfl
  · exact spelling_set e setting _

theorem spelling_adjust (c : Converter) (e : Effect) (item : SpeechItem) :
    (c.adjust e item).spelling =
      match c.dialect with
      | .standard => (spelling? item).getD e.spelling
      | .leveled _ => e.spelling := by
  cases item <;> cases hd : c.dialect <;>
    simp [adjust, hd, spelling?, spelling_set, spelling_relative]

theorem spelling_effectAfter (c : Converter) (before : List SpeechItem) :
    (c.effectAfter before).spelling = c.spells before := by
  induction before using List.reverseRecOn with
  | nil =>
    show c.start.spelling = _
    cases hd : c.dialect with
    | standard => simp [start, spells, hd, last, Effect.initial]
    | leveled base => simp [start, spells, hd, spelling_set, Effect.initial]
  | append_singleton before item ih =>
    rw [effectAfter_append, spelling_adjust, ih]
    cases hd : c.dialect with
    | standard => cases h : spelling? item <;> simp [spells, hd, last_append, h]
    | leveled base => simp [spells, hd]

end Converter

/-- What an item has in the document, given whether texts are spelled out. -/
def SpeechItem.markup (spelling : Bool) : SpeechItem → List Markup
  | text content =>
    if spelling = true ∧ content ≠ "" then
      [.element "say-as" [("interpret-as", "characters")] (content.toList.map .char)]
    else content.toList.map .char
  | item => item.written

def Scope.enclose (s : Scope) (content : List Markup) : List Markup :=
  s.foldr (fun e inner => [.element e.1 e.2 inner]) content

/-- Items of a sequence, each with those before it, that share their elements in the document. -/
structure Stretch where
  scope : Scope
  items : List (List SpeechItem × SpeechItem)

def Stretch.markup (c : Converter) (s : Stretch) : List Markup :=
  s.scope.enclose (s.items.flatMap fun x => x.2.markup (c.spells x.1))

namespace Converter

open SpeechItem (contexts)

theorem seenAll_wrap (s : Scope) (nodes : List Node) :
    Node.seenAll (s.wrap nodes) = s.enclose (Node.seenAll nodes) := by
  induction s with
  | nil => rfl
  | cons e es ih =>
    have hw : Scope.wrap (e :: es) nodes = [.element e.1 e.2 (Scope.wrap es nodes)] := rfl
    rw [hw, Node.seenAll, Node.seen, Node.seenAll, List.append_nil, ih]
    rfl

theorem seenAll_spoken {item : SpeechItem} (hs : item.isSpoken = true) (spelling : Bool) :
    Node.seenAll (spoken spelling item) = item.markup spelling := by
  cases item with
  | text content =>
    rw [spoken, SpeechItem.markup]
    by_cases he : content = ""
    · simp [he, Node.seenAll]
    · cases spelling <;> simp [he, Node.seenAll, Node.seen]
  | index n => rfl
  | pause millis => rfl
  | phoneme ipa text =>
    simp [spoken, SpeechItem.markup, SpeechItem.written, Node.seenAll, Node.seen]
  | _ => cases hs

theorem changed_set {e : Effect} {setting : Setting} {value : String}
    (h : (e.set setting value).changed = false) : e.set setting value = e := by
  rw [Effect.set] at h ⊢
  split at h
  next hv => rw [if_pos hv]
  · cases h

theorem changed_relative {e : Effect} {setting : Setting} {m : Multiplier}
    (h : (relative e setting m).changed = false) : relative e setting m = e := by
  rw [relative] at h ⊢
  split at h
  next hm =>
    rw [if_pos hm]
    rw [Effect.clear] at h ⊢
    split at h
    next hv => rw [if_pos hv]
    · cases h
  next hm =>
    rw [if_neg hm]
    exact changed_set h

/-- As long as no change is noted, the scope is the one that was opened last. -/
theorem changed_adjust {c : Converter} {e : Effect} {item : SpeechItem}
    (h : (c.adjust e item).changed = false) :
    e.changed = false ∧ (c.adjust e item).scope = e.scope := by
  have same : c.adjust e item = e → e.changed = false ∧ (c.adjust e item).scope = e.scope := by
    intro he
    rw [he] at h ⊢
    exact ⟨h, rfl⟩
  cases item with
  | characterMode on =>
    rw [adjust] at h ⊢
    split at h
    · exact ⟨h, rfl⟩
    · exact ⟨h, rfl⟩
  | language tag => exact same (changed_set h)
  | pitch m => exact same (changed_relative h)
  | rate m => exact same (changed_relative h)
  | volume m =>
    refine same ?_
    rw [adjust] at h ⊢
    split at h
    · exact changed_relative h
    · exact changed_set h
  | _ => exact same rfl

theorem set_of_same {e : Effect} {setting : Setting} {value : String}
    (h : (e.set setting value).scope.value? setting = e.scope.value? setting) :
    e.set setting value = e := by
  rw [Effect.value?_set, if_pos rfl] at h
  rw [Effect.set, if_pos h.symm]

theorem clear_of_same {e : Effect} (ht : e.scope.Tidy) {setting : Setting}
    (h : (e.clear setting).scope.value? setting = e.scope.value? setting) :
    e.clear setting = e := by
  rw [Effect.value?_clear ht, if_pos rfl] at h
  rw [Effect.clear, if_pos h.symm]

theorem relative_of_same {e : Effect} (ht : e.scope.Tidy) {setting : Setting} {m : Multiplier}
    (h : (relative e setting m).scope.value? setting = e.scope.value? setting) :
    relative e setting m = e := by
  rw [relative] at h ⊢
  split at h
  next hm =>
    rw [if_pos hm]
    exact clear_of_same ht h
  next hm =>
    rw [if_neg hm]
    exact set_of_same h

theorem adjust_of_same (c : Converter) {e : Effect} {item : SpeechItem} (ht : e.scope.Tidy)
    (h : ∀ t, (c.adjust e item).scope.value? t = e.scope.value? t) :
    c.adjust e item = { e with spelling := (c.adjust e item).spelling } := by
  have same (he : c.adjust e item = e) :
      c.adjust e item = { e with spelling := (c.adjust e item).spelling } := by
    rw [he]
  cases item with
  | characterMode on =>
    rw [adjust]
    split <;> rfl
  | language tag => exact same (set_of_same (h .language))
  | pitch m => exact same (relative_of_same ht (h .pitch))
  | rate m => exact same (relative_of_same ht (h .rate))
  | volume m =>
    refine same ?_
    rw [adjust] at h ⊢
    split at h
    · exact relative_of_same ht (h .volume)
    · exact set_of_same (h .volume)
  | _ => rfl

theorem set_noted (e : Effect) (noted : Bool) (setting : Setting) (value : String) :
    ∃ b, { e with changed := noted }.set setting value =
      { e.set setting value with changed := b } := by
  rw [Effect.set, Effect.set]
  by_cases h : e.scope.value? setting = some value
  · exact ⟨noted, by rw [if_pos h, if_pos h]⟩
  · exact ⟨true, by rw [if_neg h, if_neg h]⟩

theorem relative_noted (e : Effect) (noted : Bool) (setting : Setting) (m : Multiplier) :
    ∃ b, relative { e with changed := noted } setting m =
      { relative e setting m with changed := b } := by
  rw [relative, relative]
  by_cases hm : m.isNormal = true
  · rw [if_pos hm, if_pos hm, Effect.clear, Effect.clear]
    by_cases h : e.scope.value? setting = none
    · exact ⟨noted, by rw [if_pos h, if_pos h]⟩
    · exact ⟨true, by rw [if_neg h, if_neg h]⟩
  · rw [if_neg hm, if_neg hm]
    exact set_noted e noted setting _

theorem adjust_noted (c : Converter) (e : Effect) (noted : Bool) (item : SpeechItem) :
    ∃ b, c.adjust { e with changed := noted } item = { c.adjust e item with changed := b } := by
  cases item with
  | characterMode on =>
    refine ⟨noted, ?_⟩
    rw [adjust, adjust]
    split <;> rfl
  | language tag => exact set_noted e noted .language _
  | pitch m => exact relative_noted e noted .pitch m
  | rate m => exact relative_noted e noted .rate m
  | volume m =>
    rw [adjust, adjust]
    split
    · exact relative_noted e noted .volume m
    · exact set_noted e noted .volume _
  | _ => exact ⟨noted, rfl⟩

theorem effectAfter_append_of_spoken (c : Converter) (before : List SpeechItem)
    {item : SpeechItem} (hs : item.isSpoken = true) :
    c.effectAfter (before ++ [item]) = c.effectAfter before := by
  rw [effectAfter_append]
  cases item with
  | text content => rfl
  | index n => rfl
  | pause millis => rfl
  | phoneme ipa text => rfl
  | _ => cases hs

/-- The rest of the stretch that is open under a scope, and the stretches after it, are what the
passages of the items are read back as. -/
structure Lays (c : Converter) (opened : Scope) (passages : List Node × List Passage)
    (spoken opening : List (List SpeechItem × SpeechItem)) (later : List Stretch) : Prop where
  first : Node.seenAll passages.1 = opening.flatMap fun x => x.2.markup (c.spells x.1)
  rest : Node.seenAll (passages.2.flatMap Passage.nodes) = later.flatMap (Stretch.markup c)
  order : opening ++ later.flatMap Stretch.items = spoken
  openingScope : ∀ x ∈ opening, opened = (c.effectAfter x.1).scope
  laterScope : ∀ s ∈ later, ∀ x ∈ s.items, s.scope = (c.effectAfter x.1).scope
  filled : ∀ s ∈ later, s.items ≠ []

/-- A further item in front joins the stretch that is open. -/
theorem Lays.join {c : Converter} {opened : Scope} {passages : List Node × List Passage}
    {spoken opening : List (List SpeechItem × SpeechItem)} {later : List Stretch}
    (h : Lays c opened passages spoken opening later) {x : List SpeechItem × SpeechItem}
    {nodes : List Node} (hm : Node.seenAll nodes = x.2.markup (c.spells x.1))
    (hx : opened = (c.effectAfter x.1).scope) :
    Lays c opened (nodes ++ passages.1, passages.2) (x :: spoken) (x :: opening) later where
  first := by rw [Node.seenAll_append, h.first, hm, List.flatMap_cons]
  rest := h.rest
  order := by rw [List.cons_append, h.order]
  openingScope := List.forall_mem_cons.mpr ⟨hx, h.openingScope⟩
  laterScope := h.laterScope
  filled := h.filled

/-- A further item in front begins a stretch of its own scope, which what was open goes on with. -/
theorem Lays.begin {c : Converter} {opened : Scope} {passages : List Node × List Passage}
    {spoken opening : List (List SpeechItem × SpeechItem)} {later : List Stretch}
    (h : Lays c opened passages spoken opening later) {x : List SpeechItem × SpeechItem}
    {nodes : List Node} (hm : Node.seenAll nodes = x.2.markup (c.spells x.1))
    (hx : opened = (c.effectAfter x.1).scope) (around : Scope) :
    Lays c around ([], ⟨opened, nodes ++ passages.1⟩ :: passages.2) (x :: spoken) []
      (⟨opened, x :: opening⟩ :: later) where
  first := rfl
  rest := by
    rw [List.flatMap_cons, List.flatMap_cons, Node.seenAll_append, h.rest, Passage.nodes,
      seenAll_wrap, Node.seenAll_append, h.first, hm, Stretch.markup, List.flatMap_cons]
  order := by rw [List.nil_append, List.flatMap_cons, ← h.order, List.cons_append]
  openingScope := List.forall_mem_nil _
  laterScope :=
    List.forall_mem_cons.mpr ⟨List.forall_mem_cons.mpr ⟨hx, h.openingScope⟩, h.laterScope⟩
  filled := List.forall_mem_cons.mpr ⟨List.cons_ne_nil _ _, h.filled⟩

theorem exists_lays (c : Converter) (before : List SpeechItem) (noted : Bool) {opened : Scope}
    (ho : noted = false → (c.effectAfter before).scope = opened) (items : List SpeechItem) :
    ∃ opening later,
      Lays c opened (c.passages { c.effectAfter before with changed := noted } items)
        ((contexts before items).filter (·.2.isSpoken)) opening later := by
  induction items generalizing before noted opened with
  | nil => exact ⟨[], [], rfl, rfl, rfl, by simp, by simp, by simp⟩
  | cons item items ih =>
    rw [contexts]
    cases hs : item.isSpoken with
    | false =>
      obtain ⟨b, hb⟩ := c.adjust_noted (c.effectAfter before) noted item
      have hd : b = false → (c.effectAfter (before ++ [item])).scope = opened := by
        intro hf
        have hc : (c.adjust { c.effectAfter before with changed := noted } item).changed =
            false := by rw [hb]; exact hf
        obtain ⟨hn, hsc⟩ := changed_adjust hc
        rw [hb] at hsc
        rw [effectAfter_append]
        exact hsc.trans (ho hn)
      rw [c.passages_of_setting _ hs, hb, ← effectAfter_append,
        List.filter_cons_of_neg (by simp [hs])]
      exact ih (before ++ [item]) b hd
    | true =>
      have he := c.effectAfter_append_of_spoken before hs
      have hm : Node.seenAll (spoken (c.effectAfter before).spelling item) =
          item.markup (c.spells before) := by
        rw [c.spelling_effectAfter, seenAll_spoken hs]
      rw [List.filter_cons_of_pos (by simp [hs])]
      cases noted with
      | true =>
        obtain ⟨opening, later, h⟩ := ih (before ++ [item]) false fun _ => rfl
        rw [he] at h
        rw [c.passages_of_changed hs rfl]
        exact ⟨[], ⟨(c.effectAfter before).scope, (before, item) :: opening⟩ :: later,
          h.begin hm rfl opened⟩
      | false =>
        obtain ⟨opening, later, h⟩ := ih (before ++ [item]) false (he ▸ ho)
        rw [he] at h
        rw [c.passages_of_unchanged hs rfl]
        exact ⟨(before, item) :: opening, later, h.join hm (ho rfl).symm⟩

/-- What a document has inside is a row of stretches, the first one without elements and each other
one with something spoken in it. -/
theorem exists_stretches (c : Converter) (items : List SpeechItem) :
    ∃ stretches : List Stretch,
      (c.document items).seen =
        [.element "speak" c.rootAttributes (stretches.flatMap (Stretch.markup c))] ∧
      stretches.flatMap Stretch.items = (contexts [] items).filter (·.2.isSpoken) ∧
      ∀ s ∈ stretches, (∀ x ∈ s.items, s.scope = (c.effectAfter x.1).scope) ∧
        (s.scope = [] ∨ s.items ≠ []) := by
  have hb : c.start.changed = false → (c.effectAfter []).scope = [] := by
    intro h
    show c.start.scope = []
    rw [start] at h ⊢
    split at h
    · rfl
    · cases h
  obtain ⟨opening, later, h⟩ := c.exists_lays [] c.start.changed hb items
  refine ⟨⟨[], opening⟩ :: later, ?_, h.order, ?_⟩
  · have hf : Node.seenAll (c.passages c.start items).1 = Stretch.markup c ⟨[], opening⟩ := h.first
    have hl : Node.seenAll ((c.passages c.start items).2.flatMap Passage.nodes) =
        later.flatMap (Stretch.markup c) := h.rest
    rw [document, Node.seen, Node.seenAll_append, List.flatMap_cons, ← hf, ← hl]
  · rw [List.forall_mem_cons]
    refine ⟨⟨h.openingScope, .inl rfl⟩, ?_⟩
    intro s hs
    exact ⟨h.laterScope s hs, .inr (h.filled s hs)⟩

theorem parse_convert (c : Converter) (items : List SpeechItem) :
    Xml.parse (c.convert items).toList =
      some [.element "speak" c.rootAttributes
        (Node.seenAll (c.passages c.start items).1 ++
          Node.seenAll ((c.passages c.start items).2.flatMap Passage.nodes))] := by
  rw [parse_convert_eq_seen, document, Node.seen, Node.seenAll_append]

theorem shows_effectAfter (c : Converter) (before : List SpeechItem) :
    (c.effectAfter before).scope.Shows (c.inEffect before) := by
  have hv : (c.effectAfter before).scope.value? = c.inEffect before :=
    funext (c.value?_effectAfter before)
  rw [← hv]
  exact (c.tidy_effectAfter before).shows

/-- Every document is read back as a row of stretches that hold the spoken items in their order,
each inside the elements for what is in effect where the item stands, and no others. -/
theorem settings_in_effect (c : Converter) (items : List SpeechItem) :
    ∃ (attributes : List Xml.Attribute) (stretches : List Stretch),
      Xml.parse (c.convert items).toList =
        some [.element "speak" attributes (stretches.flatMap (Stretch.markup c))] ∧
      stretches.flatMap Stretch.items = (contexts [] items).filter (·.2.isSpoken) ∧
      ∀ s ∈ stretches, ∀ x ∈ s.items, s.scope.Shows (c.inEffect x.1) := by
  obtain ⟨stretches, hseen, hitems, hscope⟩ := c.exists_stretches items
  refine ⟨c.rootAttributes, stretches, ?_, hitems, ?_⟩
  · rw [parse_convert_eq_seen, hseen]
  · intro s hs x hx
    rw [(hscope s hs).1 x hx]
    exact c.shows_effectAfter x.1

end Converter

end SpeechBridge

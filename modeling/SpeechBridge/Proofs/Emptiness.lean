import SpeechBridge.Proofs.Elements

/-!
# Elements with nothing inside

A change of settings writes nothing by itself: elements are opened for the next item that is spoken.
But an empty text is spoken without leaving anything to speak. Main statement: no element of
settings is left empty, exactly if every empty text that stands under settings shares them, with no
change in between, with an item that is heard.
-/
namespace SpeechBridge

open Xml (Markup Node)

namespace SpeechItem

/-- Whether the item leaves anything to speak in a document. -/
def isHeard : SpeechItem → Bool
  | text content => decide (content ≠ "")
  | item => item.isSpoken

theorem isSpoken_of_isHeard {item : SpeechItem} (h : item.isHeard = true) :
    item.isSpoken = true := by
  cases item with
  | text content => rfl
  | _ => exact h

theorem isHeard_of_not_isSpoken {item : SpeechItem} (hs : item.isSpoken = false) :
    item.isHeard = false := by
  by_contra h
  have hh : item.isHeard = true := by simpa using h
  exact absurd (isSpoken_of_isHeard hh) (by simp [hs])

/-- Only empty texts are spoken without being heard. -/
theorem eq_of_not_isHeard {item : SpeechItem} (hs : item.isSpoken = true)
    (h : item.isHeard = false) : item = .text "" := by
  cases item with
  | text content =>
    by_cases he : content = ""
    · rw [he]
    · simp [isHeard, he] at h
  | index n => cases h
  | pause millis => cases h
  | phoneme ipa content => cases h
  | _ => cases hs

theorem contexts_append (before items : List SpeechItem) (item : SpeechItem) :
    contexts before (items ++ [item]) = contexts before items ++ [(before ++ items, item)] := by
  induction items generalizing before with
  | nil => simp [contexts]
  | cons first items ih => simp [contexts, ih]

end SpeechItem

namespace Converter

open SpeechItem (contexts contexts_append)
open Xml.Markup

theorem heardAll_spoken (spelling : Bool) (item : SpeechItem) :
    heardAll (Node.seenAll (spoken spelling item)) = item.isHeard := by
  cases item with
  | text content =>
    by_cases he : content = ""
    · simp [spoken, he, Node.seenAll, heardAll, SpeechItem.isHeard]
    · have hc : content.toList ≠ [] := fun h => he (String.toList_eq_nil_iff.mp h)
      cases spelling <;>
        simp [spoken, he, Node.seenAll, Node.seen, heardAll, heard, heardAll_chars, hc,
          Xml.voiced, SpeechItem.isHeard]
  | index n => rfl
  | pause millis => rfl
  | phoneme ipa content => rfl
  | _ => rfl

theorem filled_spoken (spelling : Bool) (item : SpeechItem) :
    Filled (Node.seenAll (spoken spelling item)) := by
  have chars (cs : List Char) : Filled (cs.map .char) := by
    intro e he
    rw [elementsAll_chars] at he
    cases he
  cases item with
  | text content =>
    by_cases he : content = ""
    · simp [spoken, he, Node.seenAll, Filled, elementsAll]
    · have hc : content.toList ≠ [] := fun h => he (String.toList_eq_nil_iff.mp h)
      cases spelling with
      | false => simpa [spoken, he, Node.seenAll, Node.seen] using chars content.toList
      | true =>
        intro e hm hw
        simp only [spoken, he, if_false, if_true, Node.seenAll, Node.seen, List.append_nil] at hm
        rcases mem_elementsAll_element.mp hm with rfl | hm
        · simp [heardAll_chars, hc]
        · exact chars content.toList e hm hw
  | index n => exact (filled_element_of_notMem (by decide)).mpr (chars [])
  | pause millis => exact (filled_element_of_notMem (by decide)).mpr (chars [])
  | phoneme ipa content =>
    have h : Filled [.element "phoneme" [("alphabet", "ipa"), ("ph", ipa)]
        (content.toList.map .char)] :=
      (filled_element_of_notMem (by decide)).mpr (chars content.toList)
    simpa [spoken, Node.seenAll, Node.seen] using h
  | _ => exact chars []

/-- Whether an item, after those before it, changes anything of what is in effect. -/
def alters (c : Converter) (x : List SpeechItem × SpeechItem) : Bool :=
  [Setting.volume, .pitch, .rate, .language].any fun t =>
    c.inEffect (x.1 ++ [x.2]) t != c.inEffect x.1 t

/-- How often what is in effect has changed. -/
def changes (c : Converter) (before : List SpeechItem) : Nat :=
  (contexts [] before).countP c.alters

theorem alters_eq_false_iff (c : Converter) (before : List SpeechItem) (item : SpeechItem) :
    c.alters (before, item) = false ↔ c.inEffect (before ++ [item]) = c.inEffect before := by
  constructor
  · intro h
    simp only [alters, List.any_eq_false, bne_iff_ne, not_not] at h
    funext t
    apply h
    cases t <;> decide
  · intro h
    simp [alters, h]

theorem changes_append (c : Converter) (before : List SpeechItem) (item : SpeechItem) :
    c.changes (before ++ [item]) =
      c.changes before + if c.alters (before, item) then 1 else 0 := by
  simp [changes, contexts_append, List.countP_append, List.countP_cons]

theorem alters_of_isSpoken (c : Converter) (before : List SpeechItem) {item : SpeechItem}
    (hs : item.isSpoken = true) : c.alters (before, item) = false := by
  rw [alters_eq_false_iff]
  funext t
  rw [← value?_effectAfter, ← value?_effectAfter, c.effectAfter_append_of_spoken before hs]

theorem changes_le (c : Converter) {before items : List SpeechItem}
    {x : List SpeechItem × SpeechItem} (h : x ∈ contexts before items) :
    c.changes before ≤ c.changes x.1 := by
  induction items generalizing before with
  | nil => cases h
  | cons item items ih =>
    rcases List.mem_cons.mp h with rfl | h
    · exact Nat.le_refl _
    · have := ih h
      rw [changes_append] at this
      omega

theorem inEffect_of_changes (c : Converter) {before items : List SpeechItem}
    {x : List SpeechItem × SpeechItem} (h : x ∈ contexts before items)
    (hc : c.changes x.1 = c.changes before) : c.inEffect x.1 = c.inEffect before := by
  induction items generalizing before with
  | nil => cases h
  | cons item items ih =>
    rcases List.mem_cons.mp h with rfl | h
    · rfl
    · have hle := c.changes_le h
      rw [changes_append] at hle
      cases ha : c.alters (before, item) with
      | true =>
        simp only [ha, if_true] at hle
        omega
      | false =>
        have hs : c.changes (before ++ [item]) = c.changes before := by simp [changes_append, ha]
        rw [ih h (hc.trans hs.symm)]
        exact (c.alters_eq_false_iff before item).mp ha

theorem changed_adjust_of_same (c : Converter) {e : Effect} {item : SpeechItem}
    (h : e.scope.Tidy) (hc : e.changed = false)
    (hs : ∀ t, (c.adjust e item).scope.value? t = e.scope.value? t) :
    (c.adjust e item).changed = false := by
  rw [c.adjust_of_same h hs]
  exact hc

theorem changed_adjust_iff (c : Converter) (before : List SpeechItem) (noted : Bool)
    (item : SpeechItem) :
    (c.adjust { c.effectAfter before with changed := noted } item).changed = false ↔
      noted = false ∧ c.alters (before, item) = false := by
  obtain ⟨b, hb⟩ := c.adjust_noted (c.effectAfter before) noted item
  rw [← effectAfter_append] at hb
  constructor
  · intro hc
    obtain ⟨hn, hs⟩ := changed_adjust hc
    refine ⟨hn, (c.alters_eq_false_iff before item).mpr ?_⟩
    funext t
    rw [← value?_effectAfter, ← value?_effectAfter]
    rw [hb] at hs
    exact congrArg (Scope.value? · t) hs
  · rintro ⟨rfl, ha⟩
    have hsame := (c.alters_eq_false_iff before item).mp ha
    have hvalue (t : Setting) :
        (c.adjust { c.effectAfter before with changed := false } item).scope.value? t =
          (c.effectAfter before).scope.value? t := by
      rw [hb]
      exact (c.value?_effectAfter _ t).trans
        ((congrFun hsame t).trans (c.value?_effectAfter _ t).symm)
    exact c.changed_adjust_of_same (c.tidy_effectAfter before) rfl hvalue

/-- What is noted of a change is whether there is one. -/
theorem adjust_effectAfter (c : Converter) (before : List SpeechItem) (noted : Bool)
    (item : SpeechItem) :
    c.adjust { c.effectAfter before with changed := noted } item =
      { c.effectAfter (before ++ [item]) with
        changed := noted || c.alters (before, item) } := by
  have hchanged := c.changed_adjust_iff before noted item
  obtain ⟨b, hb⟩ := c.adjust_noted (c.effectAfter before) noted item
  rw [hb, ← Bool.or_eq_false_iff] at hchanged
  have hb' : b = (noted || c.alters (before, item)) := by
    cases b with
    | false => exact (hchanged.mp rfl).symm
    | true =>
      symm
      apply eq_true_of_ne_false
      intro hn
      cases hchanged.mpr hn
  rw [hb, hb', effectAfter_append]

def passagesAfter (c : Converter) (before : List SpeechItem) (noted : Bool)
    (items : List SpeechItem) : List Node × List Passage :=
  c.passages { c.effectAfter before with changed := noted } items

theorem passagesAfter_of_setting (c : Converter) (before : List SpeechItem) (noted : Bool)
    {item : SpeechItem} (hs : item.isSpoken = false) (items : List SpeechItem) :
    c.passagesAfter before noted (item :: items) =
      c.passagesAfter (before ++ [item]) (noted || c.alters (before, item)) items := by
  rw [passagesAfter, c.passages_of_setting _ hs, adjust_effectAfter]
  rfl

theorem passagesAfter_of_changed (c : Converter) (before : List SpeechItem)
    {item : SpeechItem} (hs : item.isSpoken = true) (items : List SpeechItem) :
    c.passagesAfter before true (item :: items) =
      ([], ⟨(c.effectAfter before).scope, spoken (c.effectAfter before).spelling item ++
          (c.passagesAfter (before ++ [item]) false items).1⟩ ::
        (c.passagesAfter (before ++ [item]) false items).2) := by
  rw [passagesAfter, c.passages_of_changed hs rfl, passagesAfter,
    c.effectAfter_append_of_spoken before hs]

theorem passagesAfter_of_unchanged (c : Converter) (before : List SpeechItem)
    {item : SpeechItem} (hs : item.isSpoken = true) (items : List SpeechItem) :
    c.passagesAfter before false (item :: items) =
      (spoken (c.effectAfter before).spelling item ++
          (c.passagesAfter (before ++ [item]) false items).1,
        (c.passagesAfter (before ++ [item]) false items).2) := by
  rw [passagesAfter, c.passages_of_unchanged hs rfl, passagesAfter,
    c.effectAfter_append_of_spoken before hs]

theorem filled_passagesAfter (c : Converter) (before : List SpeechItem) (noted : Bool)
    (items : List SpeechItem) :
    Filled (Node.seenAll (c.passagesAfter before noted items).1) ∧
      ∀ p ∈ (c.passagesAfter before noted items).2,
        p.scope.Sound ∧ Filled (Node.seenAll p.content) := by
  induction items generalizing before noted with
  | nil =>
    refine ⟨?_, fun p hp => by cases hp⟩
    intro e he
    cases he
  | cons item items ih =>
    cases hs : item.isSpoken with
    | false =>
      rw [c.passagesAfter_of_setting before noted hs]
      exact ih _ _
    | true =>
      obtain ⟨hopening, hlater⟩ := ih (before ++ [item]) false
      have hcontent := filled_append.mpr
        ⟨filled_spoken (c.effectAfter before).spelling item, hopening⟩
      rw [← Node.seenAll_append] at hcontent
      cases noted with
      | true =>
        rw [c.passagesAfter_of_changed before hs]
        refine ⟨?_, List.forall_mem_cons.mpr ⟨?_, hlater⟩⟩
        · intro e he
          cases he
        · exact ⟨(c.tidy_effectAfter before).sound, hcontent⟩
      | false =>
        rw [c.passagesAfter_of_unchanged before hs]
        exact ⟨hcontent, hlater⟩

/-- With a change noted nothing goes into the open passage any more. -/
theorem opening_of_noted (c : Converter) (before items : List SpeechItem) :
    (c.passagesAfter before true items).1 = [] := by
  induction items generalizing before with
  | nil => rfl
  | cons item items ih =>
    cases hs : item.isSpoken with
    | false =>
      rw [c.passagesAfter_of_setting before true hs, Bool.true_or]
      exact ih _
    | true => rw [c.passagesAfter_of_changed before hs]

/-- One of the items is heard after just so many changes. -/
def HeardAt (c : Converter) (among : List (List SpeechItem × SpeechItem)) (count : Nat) : Prop :=
  ∃ y ∈ among, y.2.isHeard = true ∧ c.changes y.1 = count

theorem heardAt_cons (c : Converter) (before items : List SpeechItem) (item : SpeechItem)
    (count : Nat) :
    c.HeardAt (contexts before (item :: items)) count ↔
      (item.isHeard = true ∧ c.changes before = count) ∨
        c.HeardAt (contexts (before ++ [item]) items) count := by
  simp [HeardAt, contexts, or_and_right, exists_or]

theorem not_heardAt_of_lt (c : Converter) {before items : List SpeechItem} {count : Nat}
    (h : count < c.changes before) : ¬ c.HeardAt (contexts before items) count := by
  rintro ⟨y, hy, _, rfl⟩
  exact absurd (c.changes_le hy) (Nat.not_le.mpr h)

/-- The open passage goes on up to the next change, so what is heard in it comes before that. -/
theorem heardAll_opening_iff (c : Converter) (before items : List SpeechItem) :
    heardAll (Node.seenAll (c.passagesAfter before false items).1) = true ↔
      c.HeardAt (contexts before items) (c.changes before) := by
  induction items generalizing before with
  | nil => simp [passagesAfter, passages, Node.seenAll, heardAll, HeardAt, contexts]
  | cons item items ih =>
    rw [heardAt_cons]
    have hchanges := c.changes_append before item
    cases hs : item.isSpoken with
    | false =>
      rw [c.passagesAfter_of_setting before false hs, Bool.false_or,
        SpeechItem.isHeard_of_not_isSpoken hs]
      cases ha : c.alters (before, item) with
      | true =>
        have hlt : c.changes before < c.changes (before ++ [item]) := by
          simp [hchanges, ha]
        simp [opening_of_noted, Node.seenAll, heardAll, c.not_heardAt_of_lt hlt]
      | false =>
        simp only [ha, Bool.false_eq_true, if_false, Nat.add_zero] at hchanges
        simp [ih, hchanges]
    | true =>
      simp only [c.alters_of_isSpoken before hs, Bool.false_eq_true, if_false,
        Nat.add_zero] at hchanges
      rw [c.passagesAfter_of_unchanged before hs, Node.seenAll_append, heardAll_append,
        heardAll_spoken, Bool.or_eq_true, ih, hchanges]
      simp

theorem scope_eq_nil_iff (c : Converter) (before : List SpeechItem) :
    (c.effectAfter before).scope = [] ↔ ¬ ∃ t, c.inEffect before t ≠ none := by
  have ht := c.tidy_effectAfter before
  simp only [← value?_effectAfter]
  constructor
  · rintro hn ⟨t, hv⟩
    rw [hn] at hv
    exact hv rfl
  · intro hn
    cases hs : (c.effectAfter before).scope with
    | nil => rfl
    | cons e es =>
      have he : e ∈ (c.effectAfter before).scope := hs ▸ List.mem_cons_self
      obtain ⟨a, ha⟩ := List.exists_mem_of_ne_nil _ (ht.filled e he)
      obtain ⟨t, _, _, hv⟩ := ht.value?_of_mem he ha
      exact absurd ⟨t, by simp [hv]⟩ hn

/-- Each item that is spoken under settings, past the open passage, shares these with something
heard. -/
def Kept (c : Converter) (before : List SpeechItem) (noted : Bool) (items : List SpeechItem) :
    Prop :=
  ∀ x ∈ contexts before items, x.2.isSpoken = true →
    (noted = true ∨ c.changes before < c.changes x.1) →
    (∃ t, c.inEffect x.1 t ≠ none) → c.HeardAt (contexts before items) (c.changes x.1)

theorem kept_of_setting (c : Converter) (before : List SpeechItem) (noted : Bool)
    {item : SpeechItem} (hs : item.isSpoken = false) (items : List SpeechItem) :
    c.Kept before noted (item :: items) ↔
      c.Kept (before ++ [item]) (noted || c.alters (before, item)) items := by
  have hheard (count : Nat) : c.HeardAt (contexts before (item :: items)) count ↔
      c.HeardAt (contexts (before ++ [item]) items) count := by
    simp [heardAt_cons, SpeechItem.isHeard_of_not_isSpoken hs]
  have hopen {x : List SpeechItem × SpeechItem} (hx : x ∈ contexts (before ++ [item]) items) :
      (noted = true ∨ c.changes before < c.changes x.1) ↔
        ((noted || c.alters (before, item)) = true ∨
          c.changes (before ++ [item]) < c.changes x.1) := by
    have hle := c.changes_le hx
    rw [changes_append] at hle ⊢
    cases ha : c.alters (before, item) with
    | false => simp
    | true =>
      simp only [ha, if_true] at hle
      simp only [Bool.or_true, true_or, iff_true]
      exact .inr (by omega)
  constructor
  · intro h x hx hsx hn he
    exact (hheard _).mp (h x (.tail _ hx) hsx ((hopen hx).mpr hn) he)
  · intro h x hx hsx hn he
    rcases List.mem_cons.mp hx with rfl | hx
    · exact absurd hsx (by simp [hs])
    · exact (hheard _).mpr (h x hx hsx ((hopen hx).mp hn) he)

theorem kept_of_unchanged (c : Converter) (before : List SpeechItem) {item : SpeechItem}
    (hs : item.isSpoken = true) (items : List SpeechItem) :
    c.Kept before false (item :: items) ↔ c.Kept (before ++ [item]) false items := by
  have hchanges : c.changes (before ++ [item]) = c.changes before := by
    simp [changes_append, c.alters_of_isSpoken before hs]
  have hheard {count : Nat} (hlt : c.changes before < count) :
      c.HeardAt (contexts before (item :: items)) count ↔
        c.HeardAt (contexts (before ++ [item]) items) count := by
    have hne : c.changes before ≠ count := by omega
    simp [heardAt_cons, hne]
  constructor
  · intro h x hx hsx hn he
    have hlt : c.changes before < c.changes x.1 := by simpa [hchanges] using hn
    exact (hheard hlt).mp (h x (.tail _ hx) hsx (.inr hlt) he)
  · intro h x hx hsx hn he
    have hlt : c.changes before < c.changes x.1 := by simpa using hn
    rcases List.mem_cons.mp hx with rfl | hx
    · exact absurd hlt (Nat.lt_irrefl _)
    · exact (hheard hlt).mpr (h x hx hsx (.inr (by omega)) he)

theorem kept_of_changed (c : Converter) (before : List SpeechItem) {item : SpeechItem}
    (hs : item.isSpoken = true) (items : List SpeechItem) :
    c.Kept before true (item :: items) ↔
      ((c.effectAfter before).scope = [] ∨
        c.HeardAt (contexts before (item :: items)) (c.changes before)) ∧
      c.Kept before false (item :: items) := by
  rw [scope_eq_nil_iff]
  constructor
  · intro h
    refine ⟨?_, fun x hx hsx _ he => h x hx hsx (.inl rfl) he⟩
    by_cases he : ∃ t, c.inEffect before t ≠ none
    · exact .inr (h (before, item) List.mem_cons_self hs (.inl rfl) he)
    · exact .inl he
  · rintro ⟨hfirst, hlater⟩ x hx hsx _ he
    by_cases hc : c.changes x.1 = c.changes before
    · rw [c.inEffect_of_changes hx hc] at he
      rw [hc]
      exact hfirst.resolve_left (not_not.mpr he)
    · have hle := c.changes_le hx
      exact hlater x hx hsx (.inr (by omega)) he

theorem heardAll_later_iff (c : Converter) (before : List SpeechItem) (noted : Bool)
    (items : List SpeechItem) :
    (∀ p ∈ (c.passagesAfter before noted items).2,
        p.scope = [] ∨ heardAll (Node.seenAll p.content) = true) ↔ c.Kept before noted items := by
  induction items generalizing before noted with
  | nil => simp [passagesAfter, passages, contexts, Kept]
  | cons item items ih =>
    cases hs : item.isSpoken with
    | false =>
      rw [c.passagesAfter_of_setting before noted hs, c.kept_of_setting before noted hs, ih]
    | true =>
      cases noted with
      | false =>
        rw [c.passagesAfter_of_unchanged before hs, c.kept_of_unchanged before hs, ih]
      | true =>
        have hopening : heardAll (Node.seenAll (spoken (c.effectAfter before).spelling item ++
              (c.passagesAfter (before ++ [item]) false items).1)) = true ↔
            c.HeardAt (contexts before (item :: items)) (c.changes before) := by
          rw [← heardAll_opening_iff, c.passagesAfter_of_unchanged before hs]
        rw [c.passagesAfter_of_changed before hs, c.kept_of_changed before hs,
          c.kept_of_unchanged before hs, List.forall_mem_cons, ih, hopening]

theorem filled_passages_iff (c : Converter) (items : List SpeechItem) :
    Filled (Node.seenAll (c.passages c.start items).1 ++
        Node.seenAll ((c.passages c.start items).2.flatMap Passage.nodes)) ↔
      c.Kept [] c.start.changed items := by
  obtain ⟨hopening, hlater⟩ := c.filled_passagesAfter [] c.start.changed items
  rw [← heardAll_later_iff, filled_append, Node.seenAll_flatMap, filled_flatMap]
  constructor
  · rintro ⟨_, h⟩ p hp
    have hf := h p hp
    rw [Passage.nodes, seenAll_wrap] at hf
    exact ((filled_enclose (hlater p hp).1).mp hf).1
  · intro h
    refine ⟨hopening, ?_⟩
    intro p hp
    obtain ⟨hs, hf⟩ := hlater p hp
    rw [Passage.nodes, seenAll_wrap]
    exact (filled_enclose hs).mpr ⟨h p hp, hf⟩

theorem changed_start (c : Converter) (h : ∃ t, c.inEffect [] t ≠ none) :
    c.start.changed = true := by
  cases hd : c.dialect with
  | standard =>
    obtain ⟨t, ht⟩ := h
    rw [← value?_start, start, hd] at ht
    exact absurd rfl ht
  | leveled base =>
    rw [start, hd]
    rfl

theorem kept_start_iff (c : Converter) (items : List SpeechItem) :
    c.Kept [] c.start.changed items ↔
      ∀ x ∈ contexts [] items, x.2 = .text "" → (∃ t, c.inEffect x.1 t ≠ none) →
        c.HeardAt (contexts [] items) (c.changes x.1) := by
  constructor
  · intro h x hx ht he
    refine h x hx (by rw [ht]; rfl) ?_ he
    by_cases hc : c.changes x.1 = c.changes []
    · rw [c.inEffect_of_changes hx hc] at he
      exact .inl (c.changed_start he)
    · have hle := c.changes_le hx
      exact .inr (by omega)
  · intro h x hx hs _ he
    cases hh : x.2.isHeard with
    | true => exact ⟨x, hx, hh, rfl⟩
    | false => exact h x hx (SpeechItem.eq_of_not_isHeard hs hh) he

/-- No element of settings is left with nothing to speak inside, exactly if every empty text that
stands under settings shares them, with no change in between, with an item that is heard. -/
theorem filled_convert_iff (c : Converter) (items : List SpeechItem) :
    ∃ document, Xml.parse (c.convert items).toList = some document ∧
      (Filled document ↔
        ∀ x ∈ contexts [] items, x.2 = .text "" → (∃ t, c.inEffect x.1 t ≠ none) →
          ∃ y ∈ contexts [] items, y.2.isHeard = true ∧ c.changes y.1 = c.changes x.1) := by
  refine ⟨_, c.parse_convert items, ?_⟩
  have hroot : "speak" ∉ wrappers := by decide
  exact (filled_element_of_notMem hroot).trans
    ((c.filled_passages_iff items).trans (c.kept_start_iff items))

/-- A pitch for an empty text opens an element with nothing inside. -/
theorem pitch_for_nothing :
    ∃ document, Xml.parse (Converter.convert ⟨"en", .standard⟩
        [.pitch (.ofBits 0x3FF8000000000000), .text ""]).toList = some document ∧
      ¬ Filled document :=
  ⟨_, parse_convert _ _, by decide⟩

end Converter

end SpeechBridge

import SpeechBridge.Ssml.Document

/-!
# Passages of a document

A conversion writes a tree. It cuts a sequence into passages, each spoken under one scope: the
next spoken item after a change opens a new passage, which closes all elements of the one before
and opens those now in effect. Main statement: what a conversion writes is the tree of passages.
-/
namespace SpeechBridge

open Xml (Node Writer)

namespace Xml.Node

mutual

def put (w : Writer) : Node → Writer
  | .text content => w.text content
  | .element name attributes children => (putAll (w.start name attributes) children).finish name

def putAll (w : Writer) : List Node → Writer
  | [] => w
  | n :: ns => putAll (put w n) ns

end

theorem putAll_append (w : Writer) (a b : List Node) :
    putAll w (a ++ b) = putAll (putAll w a) b := by
  induction a generalizing w with
  | nil => rfl
  | cons n ns ih => exact ih (put w n)

mutual

theorem put_eq (w : Writer) (n : Node) : put w n = ⟨w.settled ++ n.render, false⟩ := by
  cases n with
  | text content => rw [put, Writer.text, render]
  | element name attributes children =>
    cases children with
    | nil =>
      rw [put, putAll, Writer.start, Writer.finish, if_pos rfl, render, List.append_assoc]
    | cons n ns =>
      rw [put, putAll_eq _ _ (List.cons_ne_nil n ns), Writer.finish, if_neg (by simp), Writer.start,
        Writer.settled_unfinished, render]
      simp only [List.append_assoc]

theorem putAll_eq (w : Writer) (ns : List Node) (h : ns ≠ []) :
    putAll w ns = ⟨w.settled ++ renderAll ns, false⟩ := by
  cases ns with
  | nil => exact absurd rfl h
  | cons n ns =>
    rw [putAll, put_eq]
    cases ns with
    | nil => rw [putAll, renderAll, renderAll, List.append_nil]
    | cons m ns =>
      rw [putAll_eq _ (m :: ns) (List.cons_ne_nil m ns), Writer.settled_finished,
        List.append_assoc]
      rfl

end

theorem written_put_blank (n : Node) : (put .blank n).written = n.render := by
  rw [put_eq, Writer.blank, Writer.settled_finished, List.nil_append]

end Xml.Node

def Scope.wrap (s : Scope) (content : List Node) : List Node :=
  s.foldr (fun e inner => [.element e.1 e.2 inner]) content

/-- A stretch of a document under one scope. -/
structure Passage where
  scope : Scope
  content : List Node
  deriving Repr

def Passage.nodes (p : Passage) : List Node := p.scope.wrap p.content

namespace Converter

def spoken (spelling : Bool) : SpeechItem → List Node
  | .text content =>
    if content = "" then []
    else if spelling then [.element "say-as" [("interpret-as", "characters")] [.text content]]
    else [.text content]
  | .index n => [.element "mark" [("name", decimal n.toNat)] []]
  | .pause millis => [.element "break" [("time", decimal millis.toNat ++ "ms")] []]
  | .phoneme ipa text => [.element "phoneme" [("alphabet", "ipa"), ("ph", ipa)] [.text text]]
  | _ => []

/-- The rest of the passage that is open, and the passages after it. -/
def passages (c : Converter) (e : Effect) : List SpeechItem → List Node × List Passage
  | [] => ([], [])
  | item :: items =>
    if item.isSpoken then
      let (content, later) := c.passages { e with changed := false } items
      if e.changed then ([], ⟨e.scope, spoken e.spelling item ++ content⟩ :: later)
      else (spoken e.spelling item ++ content, later)
    else c.passages (c.adjust e item) items

def document (c : Converter) (items : List SpeechItem) : Node :=
  let (opening, later) := c.passages c.start items
  .element "speak" c.rootAttributes (opening ++ later.flatMap Passage.nodes)

theorem passages_of_changed (c : Converter) {e : Effect} {item : SpeechItem}
    (hs : item.isSpoken = true) (hc : e.changed = true) (items : List SpeechItem) :
    c.passages e (item :: items) =
      ([], ⟨e.scope, spoken e.spelling item ++ (c.passages { e with changed := false } items).1⟩ ::
        (c.passages { e with changed := false } items).2) := by
  rw [passages, if_pos hs]
  exact if_pos hc

theorem passages_of_unchanged (c : Converter) {e : Effect} {item : SpeechItem}
    (hs : item.isSpoken = true) (hc : e.changed = false) (items : List SpeechItem) :
    c.passages e (item :: items) =
      (spoken e.spelling item ++ (c.passages { e with changed := false } items).1,
        (c.passages { e with changed := false } items).2) := by
  rw [passages, if_pos hs]
  exact if_neg (by simp [hc])

theorem passages_of_setting (c : Converter) (e : Effect) {item : SpeechItem}
    (hs : item.isSpoken = false) (items : List SpeechItem) :
    c.passages e (item :: items) = c.passages (c.adjust e item) items := by
  rw [passages, if_neg (by simp [hs])]

end Converter

namespace Conversion

open Xml.Node (put putAll putAll_append)
open Converter (spoken)

theorem write_eq_putAll (w : Writer) (spelling : Bool) (item : SpeechItem) :
    write w spelling item = putAll w (spoken spelling item) := by
  cases item with
  | text content =>
    rw [write, spoken]
    split
    · rfl
    split
    · rfl
    · rfl
  | _ => rfl

theorem putAll_wrap (w : Writer) (s : Scope) (content : List Node) :
    putAll w (s.wrap content) =
      closeAll (putAll (openAll w s) content) (s.map Prod.fst).reverse := by
  induction s generalizing w with
  | nil => rfl
  | cons e es ih =>
    have h : putAll w (Scope.wrap (e :: es) content) =
        (putAll (w.start e.1 e.2) (Scope.wrap es content)).finish e.1 := rfl
    rw [h, ih, List.map_cons, List.reverse_cons, closeAll, closeAll, List.foldl_append]
    rfl

theorem take_of_setting (c : Converter) (s : Conversion) {item : SpeechItem}
    (hs : item.isSpoken = false) :
    take c s item = { s with effect := c.adjust s.effect item } := by
  rw [take, if_neg (by simp [hs])]

theorem take_of_unchanged (c : Converter) {s : Conversion} {item : SpeechItem}
    (hs : item.isSpoken = true) (hc : s.effect.changed = false) :
    take c s item = { s with writer := putAll s.writer (spoken s.effect.spelling item) } := by
  have hf : s.flush = s := by rw [flush, if_neg (by simp [hc])]
  rw [take, if_pos hs, hf, write_eq_putAll]

theorem take_of_changed (c : Converter) {s : Conversion} {item : SpeechItem}
    (hs : item.isSpoken = true) (hc : s.effect.changed = true) :
    take c s item =
      ⟨putAll (openAll (closeAll s.writer s.opened) s.effect.scope)
          (spoken s.effect.spelling item),
        { s.effect with changed := false }, (s.effect.scope.map Prod.fst).reverse⟩ := by
  rw [take, if_pos hs, flush, if_pos hc, write_eq_putAll]

theorem finish_foldl_take (c : Converter) (s : Conversion) (items : List SpeechItem) :
    (items.foldl (take c) s).finish =
      String.ofList
        ((putAll (closeAll (putAll s.writer (c.passages s.effect items).1) s.opened)
          ((c.passages s.effect items).2.flatMap Passage.nodes)).finish "speak").written := by
  induction items generalizing s with
  | nil => rfl
  | cons item items ih =>
    rw [List.foldl_cons, ih]
    cases hs : item.isSpoken with
    | false => rw [take_of_setting c s hs, c.passages_of_setting s.effect hs]
    | true =>
      cases hc : s.effect.changed with
      | true =>
        rw [take_of_changed c hs hc, c.passages_of_changed hs hc, List.flatMap_cons,
          putAll_append, Passage.nodes, putAll_wrap, putAll_append]
        rfl
      | false =>
        have he : s.effect = { s.effect with changed := false } := by rw [← hc]
        rw [take_of_unchanged c hs hc, c.passages_of_unchanged hs hc, putAll_append, ← he]

end Conversion

/-- A conversion writes the tree of its passages. -/
theorem Converter.convert_eq (c : Converter) (items : List SpeechItem) :
    c.convert items = (c.document items).toString := by
  have h := Xml.Node.written_put_blank (c.document items)
  rw [convert, Conversion.finish_foldl_take, Xml.Node.toString, ← h]
  rw [document, Xml.Node.put, Xml.Node.putAll_append]
  rfl

end SpeechBridge

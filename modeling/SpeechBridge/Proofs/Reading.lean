import SpeechBridge.Text.Numeral
import SpeechBridge.Xml.Node

/-!
# Reading markup back

A reader of tags and character data that resolves references, and what it makes of a written
tree. It reads what is there: white space and line ends are kept as they are. Main statement: a
tree with proper names is read back whole, every start tag matched by its own end tag.
-/
namespace SpeechBridge.Xml

inductive Markup where
  | char (c : Char)
  | element (name : String) (attributes : List Attribute) (content : List Markup)
  deriving Repr

inductive Token where
  | char (c : Char)
  | start (name : String) (attributes : List Attribute)
  | finish (name : String)
  deriving DecidableEq, Repr

def hexDigit? (c : Char) : Option Nat :=
  if c.isDigit then some (c.toNat - '0'.toNat)
  else if 'A' ≤ c ∧ c ≤ 'F' then some (c.toNat - 'A'.toNat + 10)
  else if 'a' ≤ c ∧ c ≤ 'f' then some (c.toNat - 'a'.toNat + 10)
  else none

def readHex (digits : List Char) : Option Nat :=
  if digits = [] then none
  else digits.foldlM (fun n c => (hexDigit? c).map (16 * n + ·)) 0

def charOfCode (code : Nat) : Option Char :=
  if code.isValidChar then some (Char.ofNat code) else none

def entities : List (List Char × Char) :=
  [("lt".toList, '<'), ("gt".toList, '>'), ("amp".toList, '&'), ("quot".toList, '"'),
    ("apos".toList, '\x27')]

def resolve : List Char → Option Char
  | '#' :: 'x' :: digits => (readHex digits).bind charOfCode
  | '#' :: digits => (Numeral.readDigits digits).bind charOfCode
  | name => entities.lookup name

def isNameChar (c : Char) : Bool :=
  !(c.isWhitespace || ['<', '>', '&', '/', '=', '!', '?', '"', '\x27'].contains c)

/-- A start tag as far as it has been read. -/
structure Opening where
  name : List Char
  attributes : List Attribute
  deriving DecidableEq, Repr

def Opening.add (t : Opening) (key value : List Char) : Opening :=
  { t with attributes := t.attributes ++ [(String.ofList key, String.ofList value)] }

def Opening.start (t : Opening) : Token := .start (String.ofList t.name) t.attributes

def Opening.finish (t : Opening) : Token := .finish (String.ofList t.name)

def Opening.Complete (t : Opening) : Prop := (t.attributes.map Prod.fst).Nodup

instance (t : Opening) : Decidable t.Complete := inferInstanceAs (Decidable (List.Nodup _))

/-- Where characters stand for themselves or in references. -/
inductive Site where
  | content
  | value (t : Opening) (name read : List Char)
  deriving DecidableEq, Repr

inductive Place where
  | data (site : Site)
  | reference (site : Site) (code : List Char)
  | tag
  | closing (name : List Char)
  | opening (name : List Char)
  | within (t : Opening)
  | key (t : Opening) (name : List Char)
  | equals (t : Opening) (name : List Char)
  | valued (t : Opening)
  | slash (t : Opening)
  deriving DecidableEq, Repr

def Site.take : Site → Char → Place × List Token
  | content, c => (.data .content, [.char c])
  | value t name read, c => (.data (.value t name (read ++ [c])), [])

namespace Place

def leave (t : Opening) (c : Char) : Option (Place × List Token) :=
  if c.isWhitespace then some (within t, [])
  else if c = '/' then some (slash t, [])
  else if c = '>' ∧ t.Complete then some (data .content, [t.start])
  else none

def next : Place → Char → Option (Place × List Token)
  | data .content, c =>
    if c = '&' then some (reference .content [], [])
    else if c = '<' then some (tag, [])
    else some (Site.content.take c)
  | data (.value t name read), c =>
    if c = '&' then some (reference (.value t name read) [], [])
    else if c = '"' then some (valued (t.add name read), [])
    else if c = '<' then none
    else some ((Site.value t name read).take c)
  | reference site code, c =>
    if c = ';' then (resolve code).map site.take else some (reference site (code ++ [c]), [])
  | tag, c =>
    if c = '/' then some (closing [], [])
    else if isNameChar c then some (opening [c], [])
    else none
  | closing name, c =>
    if isNameChar c then some (closing (name ++ [c]), [])
    else if c = '>' ∧ name ≠ [] then some (data .content, [.finish (String.ofList name)])
    else none
  | opening name, c =>
    if isNameChar c then some (opening (name ++ [c]), []) else leave ⟨name, []⟩ c
  | within t, c => if isNameChar c then some (key t [c], []) else leave t c
  | key t name, c =>
    if isNameChar c then some (key t (name ++ [c]), [])
    else if c = '=' then some (equals t name, [])
    else none
  | equals t name, c => if c = '"' then some (data (.value t name []), []) else none
  | valued t, c => leave t c
  | slash t, c =>
    if c = '>' ∧ t.Complete then some (data .content, [t.start, t.finish]) else none

/-- The tokens that are read, if the text ends outside of tags and references. -/
def read : Place → List Char → Option (List Token)
  | data .content, [] => some []
  | _, [] => none
  | p, c :: cs => (p.next c).bind fun (q, out) => (q.read cs).map (out ++ ·)

end Place

structure Frame where
  name : String
  attributes : List Attribute
  before : List Markup

def nest : List Markup → List Frame → List Token → Option (List Markup)
  | found, [], [] => some found
  | _, _ :: _, [] => none
  | found, frames, .char c :: tokens => nest (found ++ [.char c]) frames tokens
  | found, frames, .start name attributes :: tokens =>
    nest [] (⟨name, attributes, found⟩ :: frames) tokens
  | _, [], .finish _ :: _ => none
  | found, f :: frames, .finish name :: tokens =>
    if name = f.name then nest (f.before ++ [.element f.name f.attributes found]) frames tokens
    else none

def parse (cs : List Char) : Option (List Markup) := ((Place.data .content).read cs).bind (nest [] [])

/-- Reading the characters leads from one place to another and puts the tokens out. -/
def Reads (p : Place) (cs : List Char) (q : Place) (out : List Token) : Prop :=
  ∀ rest, p.read (cs ++ rest) = (q.read rest).map (out ++ ·)

namespace Reads

theorem nil (p : Place) : Reads p [] p [] := by
  intro rest
  simp

theorem cons {p q r : Place} {c : Char} {cs : List Char} {out out' : List Token}
    (hc : p.next c = some (q, out)) (h : Reads q cs r out') : Reads p (c :: cs) r (out ++ out') := by
  intro rest
  rw [List.cons_append, Place.read, hc, Option.bind_some]
  dsimp only
  rw [h rest, Option.map_map]
  simp [Function.comp_def]

theorem skip {p q r : Place} {c : Char} {cs : List Char} {out : List Token}
    (hc : p.next c = some (q, [])) (h : Reads q cs r out) : Reads p (c :: cs) r out := cons hc h

theorem append {p q r : Place} {cs ds : List Char} {out out' : List Token}
    (h : Reads p cs q out) (h' : Reads q ds r out') : Reads p (cs ++ ds) r (out ++ out') := by
  intro rest
  rw [List.append_assoc, h, h', Option.map_map]
  simp [Function.comp_def]

theorem single {p q : Place} {c : Char} {out : List Token} (hc : p.next c = some (q, out)) :
    Reads p [c] q out := by
  have h := cons hc (nil q)
  rwa [List.append_nil] at h

theorem read_eq {cs : List Char} {out : List Token}
    (h : Reads (.data .content) cs (.data .content) out) :
    (Place.data .content).read cs = some out := by
  have hr := h []
  rw [List.append_nil] at hr
  rw [hr]
  simp [Place.read]

end Reads

theorem reads_code (site : Site) (code name : List Char) (hn : ';' ∉ name) :
    Reads (.reference site code) name (.reference site (code ++ name)) [] := by
  induction name generalizing code with
  | nil =>
    rw [List.append_nil]
    exact .nil _
  | cons c name ih =>
    rw [List.mem_cons, not_or] at hn
    have hc : (Place.reference site code).next c = some (.reference site (code ++ [c]), []) := by
      rw [Place.next, if_neg (Ne.symm hn.1)]
    have hr := ih (code ++ [c]) hn.2
    rw [List.append_assoc] at hr
    exact .cons hc hr

theorem next_ampersand (site : Site) :
    (Place.data site).next '&' = some (.reference site [], []) := by
  cases site <;> rfl

theorem reads_reference (site : Site) (name : List Char) {c : Char} (hn : ';' ∉ name)
    (hr : resolve name = some c) :
    Reads (.data site) ('&' :: (name ++ [';'])) (site.take c).1 (site.take c).2 := by
  have hend : (Place.reference site ([] ++ name)).next ';' = some (site.take c) := by
    rw [List.nil_append, Place.next, if_pos rfl, hr]
    rfl
  exact .cons (next_ampersand site) ((reads_code site [] name hn).append (.single hend))

theorem escapeText_cases (c : Char) :
    (escapeText c = [c] ∧ c ≠ '<' ∧ c ≠ '&') ∨
      ∃ name, ';' ∉ name ∧ resolve name = some c ∧ escapeText c = '&' :: (name ++ [';']) := by
  by_cases hl : c = '<'
  · right
    rw [hl]
    exact ⟨"lt".toList, by decide, rfl, rfl⟩
  by_cases hg : c = '>'
  · right
    rw [hg]
    exact ⟨"gt".toList, by decide, rfl, rfl⟩
  by_cases ha : c = '&'
  · right
    rw [ha]
    exact ⟨"amp".toList, by decide, rfl, rfl⟩
  · left
    exact ⟨by rw [escapeText, if_neg hl, if_neg hg, if_neg ha], hl, ha⟩

theorem escapeValue_cases (c : Char) :
    (escapeValue c = [c] ∧ c ≠ '"' ∧ c ≠ '<' ∧ c ≠ '&') ∨
      ∃ name, ';' ∉ name ∧ resolve name = some c ∧ escapeValue c = '&' :: (name ++ [';']) := by
  by_cases hq : c = '"'
  · right
    rw [hq]
    exact ⟨"quot".toList, by decide, rfl, rfl⟩
  by_cases ha : c = '\x27'
  · right
    rw [ha]
    exact ⟨"apos".toList, by decide, rfl, rfl⟩
  by_cases hn : c = '\n'
  · right
    rw [hn]
    exact ⟨"#xA".toList, by decide, rfl, rfl⟩
  by_cases hr : c = '\r'
  · right
    rw [hr]
    exact ⟨"#xD".toList, by decide, rfl, rfl⟩
  · have he : escapeValue c = escapeText c := by
      rw [escapeValue, if_neg hq, if_neg ha, if_neg hn, if_neg hr]
    rw [he]
    rcases escapeText_cases c with ⟨hc, hl⟩ | href
    · exact .inl ⟨hc, hq, hl⟩
    · exact .inr href

theorem reads_escapeText (c : Char) :
    Reads (.data .content) (escapeText c) (.data .content) [.char c] := by
  rcases escapeText_cases c with ⟨hc, hl, ha⟩ | ⟨name, hn, hr, hc⟩
  · have hnext : (Place.data .content).next c = some (.data .content, [.char c]) := by
      rw [Place.next, if_neg ha, if_neg hl]
      rfl
    rw [hc]
    exact .single hnext
  · rw [hc]
    exact reads_reference .content name hn hr

theorem reads_escapeValue (t : Opening) (name read : List Char) (c : Char) :
    Reads (.data (.value t name read)) (escapeValue c) (.data (.value t name (read ++ [c]))) [] := by
  rcases escapeValue_cases c with ⟨hc, hq, hl, ha⟩ | ⟨code, hn, hr, hc⟩
  · have hnext : (Place.data (.value t name read)).next c =
        some (.data (.value t name (read ++ [c])), []) := by
      rw [Place.next, if_neg ha, if_neg hq, if_neg hl]
      rfl
    rw [hc]
    exact .single hnext
  · rw [hc]
    exact reads_reference (.value t name read) code hn hr

theorem reads_text (content : List Char) :
    Reads (.data .content) (content.flatMap escapeText) (.data .content)
      (content.map .char) := by
  induction content with
  | nil => exact .nil _
  | cons c cs ih => exact (reads_escapeText c).append ih

theorem reads_value (t : Opening) (name read value : List Char) :
    Reads (.data (.value t name read)) (value.flatMap escapeValue)
      (.data (.value t name (read ++ value))) [] := by
  induction value generalizing read with
  | nil =>
    rw [List.append_nil]
    exact .nil _
  | cons c cs ih =>
    have hr := ih (read ++ [c])
    rw [List.append_assoc] at hr
    exact (reads_escapeValue t name read c).append hr

def IsName (name : String) : Prop := name.toList ≠ [] ∧ name.toList.all isNameChar

instance (name : String) : Decidable (IsName name) := inferInstanceAs (Decidable (_ ∧ _))

theorem reads_name {place : List Char → Place}
    (hp : ∀ read c, isNameChar c → (place read).next c = some (place (read ++ [c]), []))
    (read : List Char) {name : List Char} (hn : name.all isNameChar) :
    Reads (place read) name (place (read ++ name)) [] := by
  induction name generalizing read with
  | nil =>
    rw [List.append_nil]
    exact .nil _
  | cons c name ih =>
    rw [List.all_cons, Bool.and_eq_true] at hn
    have hr := ih (read ++ [c]) hn.2
    rw [List.append_assoc] at hr
    exact .cons (hp read c hn.1) hr

def Place.Past (p : Place) (t : Opening) : Prop :=
  ∀ c, isNameChar c = false → p.next c = Place.leave t c

theorem past_opening (name : List Char) : (Place.opening name).Past ⟨name, []⟩ := by
  intro c hc
  rw [Place.next, if_neg (by simp [hc])]

theorem past_valued (t : Opening) : (Place.valued t).Past t := fun _ _ => rfl

theorem reads_attribute {p : Place} {t : Opening} (hp : p.Past t) {a : Attribute}
    (ha : IsName a.1) :
    Reads p (renderAttribute a) (.valued (t.add a.1.toList a.2.toList)) [] := by
  obtain ⟨name, value⟩ := a
  obtain ⟨hne, hall⟩ := ha
  obtain ⟨c, cs, hn⟩ := List.exists_cons_of_ne_nil hne
  rw [hn, List.all_cons, Bool.and_eq_true] at hall
  rw [renderAttribute, hn]
  have hblank : p.next ' ' = some (.within t, []) := hp ' ' (by decide)
  have hfirst : (Place.within t).next c = some (.key t [c], []) := by
    rw [Place.next, if_pos hall.1]
  have hkey : Reads (.key t [c]) cs (.key t ([c] ++ cs)) [] :=
    reads_name (fun read d hd => by rw [Place.next, if_pos hd]) [c] hall.2
  have hequals : Reads (.key t (c :: cs)) "=\"".toList (.data (.value t (c :: cs) [])) [] :=
    .skip (q := .equals t (c :: cs)) rfl (.single rfl)
  have hvalue := reads_value t (c :: cs) [] value.toList
  have hquote : (Place.data (.value t (c :: cs) value.toList)).next '"' =
    some (.valued (t.add (c :: cs) value.toList), []) := rfl
  exact .cons hblank ((((Reads.cons hfirst hkey).append hequals).append hvalue).append
    (.single hquote))

theorem reads_attributes {p : Place} {t : Opening} (hp : p.Past t) {attributes : List Attribute}
    (ha : ∀ a ∈ attributes, IsName a.1) :
    ∃ q, Place.Past q ⟨t.name, t.attributes ++ attributes⟩ ∧
      Reads p (attributes.flatMap renderAttribute) q [] := by
  induction attributes generalizing p t with
  | nil =>
    rw [List.append_nil]
    exact ⟨p, hp, .nil p⟩
  | cons a attributes ih =>
    obtain ⟨q, hq, hr⟩ := ih (past_valued (t.add a.1.toList a.2.toList)) fun b hb =>
      ha b (.tail _ hb)
    have h := (reads_attribute hp (ha a (.head _))).append hr
    simp only [Opening.add, String.ofList_toList, List.append_assoc] at hq
    exact ⟨q, hq, h⟩

theorem reads_openTag {name : String} {attributes : List Attribute} (hn : IsName name)
    (ha : ∀ a ∈ attributes, IsName a.1) :
    ∃ p, Place.Past p ⟨name.toList, attributes⟩ ∧
      Reads (.data .content) (openTag name attributes) p [] := by
  obtain ⟨hne, hall⟩ := hn
  obtain ⟨c, cs, hc⟩ := List.exists_cons_of_ne_nil hne
  rw [hc, List.all_cons, Bool.and_eq_true] at hall
  rw [openTag, hc]
  have hslash : c ≠ '/' := by
    intro h
    rw [h] at hall
    exact absurd hall.1 (by decide)
  have hfirst : Place.tag.next c = some (.opening [c], []) := by
    rw [Place.next, if_neg hslash, if_pos hall.1]
  have hname : Reads (.opening [c]) cs (.opening ([c] ++ cs)) [] :=
    reads_name (fun read d hd => by rw [Place.next, if_pos hd]) [c] hall.2
  obtain ⟨q, hq, hr⟩ := reads_attributes (past_opening (c :: cs)) ha
  exact ⟨q, hq, .skip (q := .tag) rfl (.append (.cons hfirst hname) hr)⟩

theorem reads_closeTag {name : String} (hn : IsName name) :
    Reads (.data .content) (closeTag name) (.data .content) [.finish name] := by
  obtain ⟨hne, hall⟩ := hn
  have hopen : Reads (.data .content) "</".toList (.closing []) [] :=
    .skip (q := .tag) rfl (.single rfl)
  have hname : Reads (.closing []) name.toList (.closing ([] ++ name.toList)) [] :=
    reads_name (fun read d hd => by rw [Place.next, if_pos hd]) [] hall
  have hend : (Place.closing name.toList).next '>' = some (.data .content, [.finish name]) := by
    rw [Place.next, if_neg (by decide), if_pos ⟨rfl, hne⟩, String.ofList_toList]
  exact (hopen.append hname).append (.single hend)

namespace Markup

mutual

def tokens : Markup → List Token
  | .char c => [.char c]
  | .element name attributes content =>
    .start name attributes :: (tokensAll content ++ [.finish name])

def tokensAll : List Markup → List Token
  | [] => []
  | m :: ms => tokens m ++ tokensAll ms

end

theorem tokensAll_append (a b : List Markup) :
    tokensAll (a ++ b) = tokensAll a ++ tokensAll b := by
  induction a with
  | nil => rfl
  | cons m ms ih => simp [tokensAll, ih]

theorem tokensAll_chars (cs : List Char) : tokensAll (cs.map .char) = cs.map .char := by
  induction cs with
  | nil => rfl
  | cons c cs ih => simp [tokensAll, tokens, ih]

mutual

theorem nest_tokens (m : Markup) (found : List Markup) (frames : List Frame)
    (rest : List Token) :
    nest found frames (m.tokens ++ rest) = nest (found ++ [m]) frames rest := by
  cases m with
  | char c => rw [tokens, List.cons_append, List.nil_append, nest]
  | element name attributes content =>
    have h := nest_tokensAll content [] (⟨name, attributes, found⟩ :: frames)
      (.finish name :: rest)
    rw [tokens, List.cons_append, List.append_assoc, nest]
    exact h.trans (if_pos rfl)

theorem nest_tokensAll (ms : List Markup) (found : List Markup) (frames : List Frame)
    (rest : List Token) :
    nest found frames (tokensAll ms ++ rest) = nest (found ++ ms) frames rest := by
  cases ms with
  | nil => rw [tokensAll, List.nil_append, List.append_nil]
  | cons m ms =>
    rw [tokensAll, List.append_assoc, nest_tokens m, nest_tokensAll ms, List.append_assoc]
    rfl

end

end Markup

namespace Node

mutual

def seen : Node → List Markup
  | .text content => content.toList.map .char
  | .element name attributes children => [.element name attributes (seenAll children)]

def seenAll : List Node → List Markup
  | [] => []
  | n :: ns => seen n ++ seenAll ns

end

mutual

/-- Names are names, and no element has two attributes of one name. -/
def Proper : Node → Prop
  | .text _ => True
  | .element name attributes children =>
    IsName name ∧ (∀ a ∈ attributes, IsName a.1) ∧ (attributes.map Prod.fst).Nodup ∧
      AllProper children

def AllProper : List Node → Prop
  | [] => True
  | n :: ns => Proper n ∧ AllProper ns

end

theorem seenAll_append (a b : List Node) : seenAll (a ++ b) = seenAll a ++ seenAll b := by
  induction a with
  | nil => rfl
  | cons n ns ih => simp [seenAll, ih]

theorem allProper_append {a b : List Node} : AllProper (a ++ b) ↔ AllProper a ∧ AllProper b := by
  induction a with
  | nil => simp [AllProper]
  | cons n ns ih => simp [AllProper, ih, and_assoc]

theorem reads_element {name : String} {attributes : List Attribute} {children : List Node}
    (hn : IsName name) (ha : ∀ a ∈ attributes, IsName a.1)
    (hd : (attributes.map Prod.fst).Nodup)
    (hc : Reads (.data .content) (renderAll children) (.data .content)
      (Markup.tokensAll (seenAll children))) :
    Reads (.data .content) (Node.element name attributes children).render (.data .content)
      (Markup.tokensAll (Node.element name attributes children).seen) := by
  obtain ⟨p, hp, hr⟩ := reads_openTag hn ha
  have hs : (⟨name.toList, attributes⟩ : Opening).start = .start name attributes := by
    rw [Opening.start, String.ofList_toList]
  have hf : (⟨name.toList, attributes⟩ : Opening).finish = .finish name := by
    rw [Opening.finish, String.ofList_toList]
  rw [seen, Markup.tokensAll, Markup.tokensAll, Markup.tokens, List.append_nil]
  cases children with
  | nil =>
    have hblank : p.next ' ' = some (.within ⟨name.toList, attributes⟩, []) := hp ' ' (by decide)
    have hend : (Place.slash ⟨name.toList, attributes⟩).next '>' =
        some (.data .content, [.start name attributes, .finish name]) := by
      rw [Place.next, if_pos ⟨rfl, hd⟩, hs, hf]
    have htag : Reads p " />".toList (.data .content) [.start name attributes, .finish name] :=
      .cons hblank (.skip (q := .slash _) rfl (.single hend))
    rw [render]
    exact hr.append htag
  | cons n ns =>
    have hend : p.next '>' = some (.data .content, [.start name attributes]) := by
      rw [hp '>' (by decide), Place.leave, if_neg (by decide), if_neg (by decide),
        if_pos ⟨rfl, hd⟩, hs]
    rw [render]
    exact ((hr.append (.single hend)).append hc).append (reads_closeTag hn)

mutual

theorem reads_render (n : Node) (h : n.Proper) :
    Reads (.data .content) n.render (.data .content) (Markup.tokensAll n.seen) := by
  cases n with
  | text content =>
    rw [render, seen, Markup.tokensAll_chars]
    exact reads_text content.toList
  | element name attributes children =>
    rw [Proper] at h
    obtain ⟨hn, ha, hd, hc⟩ := h
    exact reads_element hn ha hd (reads_renderAll children hc)

theorem reads_renderAll (ns : List Node) (h : AllProper ns) :
    Reads (.data .content) (renderAll ns) (.data .content) (Markup.tokensAll (seenAll ns)) := by
  cases ns with
  | nil => exact .nil _
  | cons n ns =>
    rw [AllProper] at h
    rw [renderAll, seenAll, Markup.tokensAll_append]
    exact (reads_render n h.1).append (reads_renderAll ns h.2)

end

/-- A tree with proper names is read back as it is. -/
theorem parse_render {n : Node} (h : n.Proper) : parse n.render = some n.seen := by
  have hn := Markup.nest_tokensAll n.seen [] [] []
  rw [List.append_nil] at hn
  rw [parse, (reads_render n h).read_eq, Option.bind_some, hn]
  rfl

end Node

end SpeechBridge.Xml

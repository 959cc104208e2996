import SpeechBridge.Ssml.Effect
import SpeechBridge.Xml.Writer

/-!
# Documents from sequences

A sequence is converted item by item. The conversion keeps the elements of settings that it has
opened; once something is to be spoken under other settings, it closes all of them and opens
those now in effect.
-/
namespace SpeechBridge

namespace Converter

def speechNamespace : String := "http://www.w3.org/2001/10/synthesis"

def rootAttributes (c : Converter) : List Xml.Attribute :=
  [("xmlns", speechNamespace), ("version", "1.0"), ("xml:lang", hyphenate c.language)]

end Converter

structure Conversion where
  writer : Xml.Writer
  effect : Effect
  opened : List String
  deriving DecidableEq, Repr

namespace Conversion

def closeAll (w : Xml.Writer) (opened : List String) : Xml.Writer := opened.foldl .finish w

def openAll (w : Xml.Writer) (scope : Scope) : Xml.Writer :=
  scope.foldl (fun w e => w.start e.1 e.2) w

def start (c : Converter) : Conversion :=
  ⟨Xml.Writer.blank.start "speak" c.rootAttributes, c.start, []⟩

/-- Brings the open elements in line with the settings in effect. -/
def flush (s : Conversion) : Conversion :=
  if s.effect.changed then
    ⟨openAll (closeAll s.writer s.opened) s.effect.scope, { s.effect with changed := false },
      (s.effect.scope.map Prod.fst).reverse⟩
  else s

/-- Writes what is spoken; changes of settings write nothing. -/
def write (w : Xml.Writer) (spelling : Bool) : SpeechItem → Xml.Writer
  | .text content =>
    if content = "" then w
    else if spelling then
      ((w.start "say-as" [("interpret-as", "characters")]).text content).finish "say-as"
    else w.text content
  | .index n => (w.start "mark" [("name", Converter.decimal n.toNat)]).finish "mark"
  | .pause millis =>
    (w.start "break" [("time", Converter.decimal millis.toNat ++ "ms")]).finish "break"
  | .phoneme ipa text =>
    ((w.start "phoneme" [("alphabet", "ipa"), ("ph", ipa)]).text text).finish "phoneme"
  | _ => w

def take (c : Converter) (s : Conversion) (item : SpeechItem) : Conversion :=
  if item.isSpoken then
    { s.flush with writer := write s.flush.writer s.flush.effect.spelling item }
  else { s with effect := c.adjust s.effect item }

def finish (s : Conversion) : String :=
  String.ofList ((closeAll s.writer s.opened).finish "speak").written

end Conversion

def Converter.convert (c : Converter) (items : List SpeechItem) : String :=
  (items.foldl (Conversion.take c) (.start c)).finish

end SpeechBridge

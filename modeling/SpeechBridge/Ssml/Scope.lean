import SpeechBridge.Xml.Node

/-!
# Settings in effect

Settings that hold for a stretch of speech are attributes of elements around it. A scope lists
the elements in the order in which they came into effect, outermost first, each with its
attributes in the order in which they were set.
-/
namespace SpeechBridge

inductive Setting where
  | volume | pitch | rate | language
  deriving DecidableEq, Repr

namespace Setting

def elementName : Setting → String
  | volume | pitch | rate => "prosody"
  | language => "voice"

def attributeName : Setting → String
  | volume => "volume"
  | pitch => "pitch"
  | rate => "rate"
  | language => "xml:lang"

end Setting

abbrev Enclosure := String × List Xml.Attribute

abbrev Scope := List Enclosure

namespace Scope

def attributes (s : Scope) (element : String) : List Xml.Attribute :=
  (s.lookup element).getD []

def value? (s : Scope) (setting : Setting) : Option String :=
  (s.attributes setting.elementName).lookup setting.attributeName

/-- Gives an attribute its value, in place if it is there and at the end if not. -/
def putAttribute (name value : String) : List Xml.Attribute → List Xml.Attribute
  | [] => [(name, value)]
  | a :: as => if a.1 = name then (name, value) :: as else a :: putAttribute name value as

def put (setting : Setting) (value : String) : Scope → Scope
  | [] => [(setting.elementName, [(setting.attributeName, value)])]
  | e :: es =>
    if e.1 = setting.elementName then (e.1, putAttribute setting.attributeName value e.2) :: es
    else e :: put setting value es

/-- Takes an attribute away, and its element with the last one. -/
def erase (setting : Setting) : Scope → Scope
  | [] => []
  | e :: es =>
    if e.1 = setting.elementName then
      match e.2.eraseP (·.1 == setting.attributeName) with
      | [] => es
      | as => (e.1, as) :: es
    else e :: erase setting es

end Scope

end SpeechBridge

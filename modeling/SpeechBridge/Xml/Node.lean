/-!
# Markup trees

A document is a tree of elements and character data. An element with nothing inside is
written as an empty tag; one that holds a text, be it an empty one, has a start and an end tag.
-/
namespace SpeechBridge.Xml

abbrev Attribute := String × String

inductive Node where
  | text (content : String)
  | element (name : String) (attributes : List Attribute) (children : List Node)
  deriving Repr

def escapeText (c : Char) : List Char :=
  if c = '<' then "&lt;".toList
  else if c = '>' then "&gt;".toList
  else if c = '&' then "&amp;".toList
  else [c]

def escapeValue (c : Char) : List Char :=
  if c = '"' then "&quot;".toList
  else if c = '\x27' then "&apos;".toList
  else if c = '\n' then "&#xA;".toList
  else if c = '\r' then "&#xD;".toList
  else escapeText c

def renderAttribute (a : Attribute) : List Char :=
  ' ' :: a.1.toList ++ "=\"".toList ++ a.2.toList.flatMap escapeValue ++ ['"']

def openTag (name : String) (attributes : List Attribute) : List Char :=
  '<' :: name.toList ++ attributes.flatMap renderAttribute

def closeTag (name : String) : List Char := "</".toList ++ name.toList ++ ['>']

namespace Node

mutual

def render : Node → List Char
  | .text content => content.toList.flatMap escapeText
  | .element name attributes children =>
    match children with
    | [] => openTag name attributes ++ " />".toList
    | _ :: _ => openTag name attributes ++ ['>'] ++ renderAll children ++ closeTag name

def renderAll : List Node → List Char
  | [] => []
  | node :: nodes => render node ++ renderAll nodes

end

def toString (n : Node) : String := String.ofList n.render

end Node

end SpeechBridge.Xml

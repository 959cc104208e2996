import SpeechBridge.Xml.Node

/-!
# Writing markup

A writer is told of starts, texts and ends of elements, one after the other. It leaves the last
start tag open at its end until it knows whether anything is inside the element.
-/
namespace SpeechBridge.Xml

structure Writer where
  written : List Char
  unfinished : Bool
  deriving DecidableEq, Repr

namespace Writer

def blank : Writer := ⟨[], false⟩

def settled (w : Writer) : List Char := if w.unfinished then w.written ++ ['>'] else w.written

@[simp] theorem settled_finished (written : List Char) :
    settled ⟨written, false⟩ = written := rfl

@[simp] theorem settled_unfinished (written : List Char) :
    settled ⟨written, true⟩ = written ++ ['>'] := rfl

def start (w : Writer) (name : String) (attributes : List Attribute) : Writer :=
  ⟨w.settled ++ openTag name attributes, true⟩

/-- An empty text settles the start tag as well. -/
def text (w : Writer) (content : String) : Writer :=
  ⟨w.settled ++ content.toList.flatMap escapeText, false⟩

def finish (w : Writer) (name : String) : Writer :=
  ⟨w.written ++ if w.unfinished then " />".toList else closeTag name, false⟩

end Writer

end SpeechBridge.Xml

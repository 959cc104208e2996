import SpeechBridge.Ssml.Item
import SpeechBridge.Ssml.Scope
import SpeechBridge.Text.Numeral
import SpeechBridge.Voice.Settings

/-!
# Changes of settings

A change of settings writes nothing by itself. It only changes what holds for the next spoken
item, and notes whether that differs from what holds at the place reached in the document.
-/
namespace SpeechBridge

/-- How settings are expressed. Voices of the leveled kind have no volume of their own: the base
volume is always part of the document, changes scale it, and spelling out is not used. -/
inductive Dialect where
  | standard
  | leveled (base : Volume)
  deriving DecidableEq, Repr

/-- Language tags join their parts with hyphens. -/
def hyphenate (tag : String) : String :=
  String.ofList (tag.toList.map fun c => if c = '_' then '-' else c)

structure Converter where
  language : String
  dialect : Dialect
  deriving DecidableEq, Repr

/-- What holds for the next spoken item. -/
structure Effect where
  scope : Scope
  /-- Whether the scope differs from the one last opened, or did since. -/
  changed : Bool
  spelling : Bool
  deriving DecidableEq, Repr

namespace Effect

def initial : Effect := ⟨[], false, false⟩

def set (e : Effect) (setting : Setting) (value : String) : Effect :=
  if e.scope.value? setting = some value then e
  else { e with scope := e.scope.put setting value, changed := true }

def clear (e : Effect) (setting : Setting) : Effect :=
  if e.scope.value? setting = none then e
  else { e with scope := e.scope.erase setting, changed := true }

end Effect

namespace Converter

def decimal (n : Nat) : String := String.ofList (Numeral.write n)

def percentText (m : Multiplier) : String := String.ofList (Numeral.writeInt m.percent ++ ['%'])

/-- A factor on a setting that has a normal value of its own. -/
def relative (e : Effect) (setting : Setting) (m : Multiplier) : Effect :=
  if m.isNormal then e.clear setting else e.set setting (percentText m)

def start (c : Converter) : Effect :=
  match c.dialect with
  | .standard => .initial
  | .leveled base => Effect.initial.set .volume (decimal base.value)

/-- What a change of settings does; spoken items change nothing. -/
def adjust (c : Converter) (e : Effect) : SpeechItem → Effect
  | .characterMode on =>
    match c.dialect with
    | .standard => { e with spelling := on }
    | .leveled _ => e
  | .language tag => e.set .language (hyphenate (tag.getD c.language))
  | .pitch m => relative e .pitch m
  | .rate m => relative e .rate m
  | .volume m =>
    match c.dialect with
    | .standard => relative e .volume m
    | .leveled base => e.set .volume (decimal (m.scale base.value))
  | _ => e

end Converter

end SpeechBridge

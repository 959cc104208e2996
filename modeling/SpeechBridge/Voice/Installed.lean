import SpeechBridge.Text.Split
import SpeechBridge.Voice.Environment

/-!
# Installed voices

A listed voice can be used if its registry key exists and both data files that the key names
are present. Voices whose data was removed stay listed.
-/
namespace SpeechBridge

namespace RegistryPath

def split (path : String) : Option (String × String) :=
  match Split.atFirst '\\' path.toList with
  | some (root, key) =>
    if root = [] ∨ key = [] then none else some (String.ofList root, String.ofList key)
  | none => none

def roots : List String :=
  ["HKEY_LOCAL_MACHINE", "HKEY_CURRENT_USER", "HKEY_CLASSES_ROOT", "HKEY_USERS",
   "HKEY_CURRENT_CONFIG"]

end RegistryPath

inductive RegistryValue where
  | text (s : String)
  | other
  deriving DecidableEq, Repr

/-- What decides whether a voice can be used: keys by full path, files, environment. -/
structure Installation where
  keys : List (String × List (String × RegistryValue))
  files : List String
  environment : Environment
  deriving DecidableEq, Repr

namespace Installation

def empty : Installation := ⟨[], [], []⟩

def key? (i : Installation) (id : String) : Option (List (String × RegistryValue)) :=
  match RegistryPath.split id with
  | some (root, _) => if root ∈ RegistryPath.roots then i.keys.lookup id else none
  | none => none

def text? (values : List (String × RegistryValue)) (name : String) : Option String :=
  match values.lookup name with
  | some (.text s) => if s = "" then none else some s
  | _ => none

def hasFile (i : Installation) (path : String) : Bool := i.files.contains path

def isValid (i : Installation) (id : String) : Bool :=
  match i.key? id with
  | none => false
  | some values =>
    match text? values "langDataPath", text? values "voicePath" with
    | some language, some voice =>
      i.hasFile (i.environment.expand language) && i.hasFile (i.environment.expand voice ++ ".apm")
    | _, _ => false

def admits : Option Installation → String → Bool
  | none, _ => true
  | some i, id => i.isValid id

end Installation

end SpeechBridge

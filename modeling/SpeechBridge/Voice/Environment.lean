/-!
# Environment references

A text may refer to environment variables as `%NAME%`. Percent signs pair up from the left. A
reference to a variable that is not known, or that has no name, stays as it is, and so does a
last percent sign without a partner. What is put in is not read again.
-/
namespace SpeechBridge

inductive EnvironmentValue where
  | text (s : String)
  | bytes (raw : List UInt8)
  deriving DecidableEq, Repr

abbrev Environment := List (String × EnvironmentValue)

namespace Environment

/-- The text of a variable; one that holds none counts as unknown. -/
def text? (env : Environment) (name : String) : Option String :=
  match env.lookup name with
  | some (.text s) => some s
  | _ => none

def reference (env : Environment) (name : List Char) : List Char :=
  match name, env.text? (String.ofList name) with
  | _ :: _, some s => s.toList
  | _, _ => '%' :: name ++ ['%']

/-- Reads on, outside a reference or with the part of its name read so far. -/
def scan (env : Environment) : Option (List Char) → List Char → List Char
  | none, [] => []
  | none, c :: cs => if c = '%' then scan env (some []) cs else c :: scan env none cs
  | some name, [] => '%' :: name
  | some name, c :: cs =>
    if c = '%' then env.reference name ++ scan env none cs
    else scan env (some (name ++ [c])) cs

def expand (env : Environment) (s : String) : String := String.ofList (env.scan none s.toList)

end Environment

end SpeechBridge

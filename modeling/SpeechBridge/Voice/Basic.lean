/-!
# Voices

A voice is known by its identifier, which for installed voices is a registry path.
-/
namespace SpeechBridge

structure Voice where
  id : String
  displayName : String
  language : String
  deriving DecidableEq, Repr

namespace Voice

def entry (v : Voice) : String := v.id ++ ":" ++ v.displayName

/-- The entries joined with bars, as one string. Nothing in them is escaped. -/
def listing (vs : List Voice) : String :=
  String.ofList (['|'].intercalate (vs.map fun v => v.entry.toList))

end Voice

inductive VoiceProperty where
  | speakRate
  | pitch
  deriving DecidableEq, Repr

namespace VoiceProperty

def engineName : VoiceProperty → String
  | speakRate => "MSTTS.SpeakRate"
  | pitch => "MSTTS.Pitch"

def ofEngineName? (name : String) : Option VoiceProperty :=
  [speakRate, pitch].find? (·.engineName == name)

def unknownName : String := "Matching variant not found"

theorem ofEngineName_engineName (p : VoiceProperty) : ofEngineName? p.engineName = some p := by
  cases p <;> decide

end VoiceProperty

end SpeechBridge

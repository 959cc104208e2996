import SpeechBridge.Engine.Scripted

/-!
# Directing a scripted engine

While utterances are in progress the script and the planned failures can be extended, and the
calls about voices can be made directly.
-/
namespace SpeechBridge

inductive Value where
  | done
  | flag (b : Bool)
  | count (n : Nat)
  | voice (v : Voice)
  | voices (vs : List Voice)
  | voiceId (id : String)
  | language (tag : String)
  deriving DecidableEq, Repr

inductive Answer where
  | returned (v : Value)
  | refused (e : Error)
  deriving DecidableEq, Repr

def Answer.ofExcept : Except Error Value → Answer
  | .ok v => .returned v
  | .error e => .refused e

inductive Direction where
  | script (o : Outcome)
  | fail (f : PlannedFailure)
  | setVoice (index : Nat)
  | voice
  | voices
  deriving DecidableEq, Repr

def Direction.act : Direction → Act ScriptedEngine EngineEvent Value
  | script o => do
    Act.modify fun s => { s with script := s.script ++ [o] }
    return .done
  | fail f => do
    Act.modify fun s => { s with failures := s.failures ++ [f] }
    return .done
  | setVoice index => do
    VoiceControl.setVoice index
    return .done
  | voice => do return .voice (← VoiceControl.currentVoice)
  | voices => do return .voices (← VoiceControl.voices)

end SpeechBridge

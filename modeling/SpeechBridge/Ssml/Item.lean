import SpeechBridge.Ssml.Multiplier

/-!
# Speech sequences

A sequence is flat: texts, bookmarks, pauses and pronunciations, with changes of settings in
between that hold for what comes after them.
-/
namespace SpeechBridge

inductive SpeechItem where
  | text (content : String)
  | index (n : UInt32)
  | characterMode (on : Bool)
  | language (tag : Option String)
  | pause (millis : UInt32)
  | pitch (factor : Multiplier)
  | rate (factor : Multiplier)
  | volume (factor : Multiplier)
  | phoneme (ipa text : String)
  deriving DecidableEq, Repr

namespace SpeechItem

def isSpoken : SpeechItem → Bool
  | text _ | index _ | pause _ | phoneme _ _ => true
  | _ => false

end SpeechItem

end SpeechBridge

/-!
# Failures

Every way in which an operation of the library can fail, and the text that reports it.
-/
namespace SpeechBridge

inductive WriterFault where
  | documentStartRepeated
  | noOpenElement
  | endNameDiffers
  | endNameMissing
  deriving DecidableEq, Repr

def WriterFault.message : WriterFault → String
  | .documentStartRepeated => "document start event has already been emitted"
  | .noOpenElement => "last element name is not available"
  | .endNameDiffers => "end element name is not equal to last start element name"
  | .endNameMissing => "end element name is not specified and can't be inferred"

inductive Error where
  | platform (code : UInt32)
  | canceled
  | missingResult
  | abandoned
  | malformedMarker (piece : String)
  | markup (fault : WriterFault)
  | noSuchVoice (id : String)
  | voiceIndexOutOfRange (index count : Nat)
  | engine (text : String)
  deriving DecidableEq, Repr

def upperHexDigit (n : Nat) : Char :=
  if n < 10 then Char.ofNat (0x30 + n) else Char.ofNat (0x41 + (n - 10))

def codeText (code : UInt32) : String :=
  "0x" ++ String.ofList ((List.range 8).map fun i => upperHexDigit (code.toNat / Nat.pow 16 (7 - i) % 16))

def Error.message : Error → String
  | .platform code => "platform call failed: " ++ codeText code
  | .canceled => "the asynchronous operation was canceled"
  | .missingResult => "the asynchronous operation completed without a result"
  | .abandoned => "the speech was abandoned before its audio was delivered"
  | .malformedMarker piece => "malformed marker `" ++ piece ++ "`"
  | .markup fault => "could not build SSML: emitter error: " ++ fault.message
  | .noSuchVoice id => "no such voice: " ++ id
  | .voiceIndexOutOfRange index count =>
    "voice index " ++ toString index ++ " is out of range (have " ++ toString count ++ " voices)"
  | .engine text => text

example : codeText 0x8007000E = "0x8007000E" := by decide

end SpeechBridge

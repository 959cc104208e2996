import SpeechBridge.Marker.Span
import SpeechBridge.Platform.Apartment
import SpeechBridge.Ssml.Document
import SpeechBridge.Text.Blank
import SpeechBridge.Voice.Installed

/-!
# Demonstrations

Three short programs: one lists the voices and lets the user pick one, one renders a phrase with
bookmarks into a file, one renders several phrases. A program prints as it goes; a failure ends it
with a status of its own and keeps what was printed.
-/
namespace SpeechBridge

/-- What a program leaves behind; the file is the rendered audio, if there is one. -/
structure Transcript where
  stdout : String
  status : Nat
  file : Option (List UInt8)
  deriving DecidableEq, Repr

namespace Demo

abbrev Program := Act Station String

def failureStatus : Nat := 101

def fileName : String := "speech.wav"

def print (s : String) : Program Unit := Act.note s

def printLine (s : String) : Program Unit := Act.note (s ++ "\n")

def silently {α : Type} (call : Station.Call α) : Program α := fun s =>
  let reply := call.run s
  ⟨reply.world, [], reply.result⟩

def takeSynthesizer : Program Unit := do
  let synthesizer ← silently (Station.onPlatform Synthesizer.create)
  Act.modify fun s => { s with synthesizer }

def joinApartment : Program Unit := silently (Station.onPlatform Apartment.join)

def leaveApartment : Program Unit := silently (Station.onPlatform Apartment.leave)

def transcript (p : Platform) (before : Option (List UInt8))
    (program : Program (Option (List UInt8))) : Transcript :=
  let reply := program.run ⟨p, ⟨0, false⟩⟩
  match reply.result with
  | .ok file => ⟨String.join reply.events, 0, file.or before⟩
  | .error _ => ⟨String.join reply.events, failureStatus, before⟩

def voiceLine (i : Installation) (entry : Voice × Nat) : String :=
  toString (entry.2 + 1) ++ ") " ++ entry.1.displayName ++ " [" ++ entry.1.language ++ "]" ++
    if i.isValid entry.1.id then "" else " (missing data)"

def firstLine (stdin : String) : List Char :=
  Blank.trimEnd (stdin.toList.takeWhile (· != '\n'))

def selection? (count : Nat) (line : List Char) : Option Nat :=
  match Numeral.readBelow wordSize line with
  | some n => if 0 < n ∧ n ≤ count then some (n - 1) else none
  | none => none

def chooseVoice (i : Installation) (stdin : String) : Program (Option (List UInt8)) := do
  joinApartment
  takeSynthesizer
  let voices ← silently Station.listVoices
  printLine "Available voices:"
  print (String.join (voices.zipIdx.map fun entry => voiceLine i entry ++ "\n"))
  print "Choose a voice: "
  match selection? voices.length (firstLine stdin) with
  | none => pure ()
  | some index =>
    silently (Station.setVoice index)
    let current ← silently Station.currentVoice
    printLine ("Now speaking with " ++ current.displayName ++ " (" ++ current.id ++ ")")
  leaveApartment
  return none

def phraseItems : List SpeechItem :=
  [.index 1,
   .text "The pellet with the poison's in the flagon with the dragon.",
   .index 2,
   .pitch (.ofBits 0x3FF6666666666666),
   .text "The vessel with the pestle has the brew that is true!"]

def render (document : String) : Program (List UInt8 × List Marker) := do
  match ← silently (Station.onPlatform (Pipeline.submit document ())) with
  | .ended () (.delivered audio markers) => return (audio, markers)
  | _ => Act.fail .abandoned

def speakPhrase (directories : List String) : Program (Option (List UInt8)) := do
  joinApartment
  takeSynthesizer
  let voice ← silently Station.currentVoice
  let document := Converter.convert ⟨voice.language, .leveled (.clamp 100)⟩ phraseItems
  printLine document
  let (audio, markers) ← render document
  print (String.join (markers.map fun m => m.text ++ " at " ++ m.offset.text ++ "\n"))
  if fileName ∈ directories then Act.fail (.engine (fileName ++ " is a directory"))
  printLine ("Wrote " ++ toString audio.length ++ " bytes to " ++ fileName)
  leaveApartment
  return some audio

def phrases : List String :=
  ["Hello, world!", "Get me a vodka rocks.", "Mmm, it's a bit dry."]

def phraseDocument (phrase : String) : String :=
  "<speak version=\"1.0\" xmlns=\"" ++ Converter.speechNamespace ++ "\" xml:lang=\"en-US\">" ++
    phrase ++ "</speak>"

def phraseResult (phrase : String) : Poll → String
  | .ready (.ok u) => "\"" ++ phrase ++ "\": " ++ toString u.audio.length ++ " bytes\n"
  | .ready (.error e) => "\"" ++ phrase ++ "\": " ++ e.message ++ "\n"
  | _ => ""

def speakPhrases : Program (Option (List UInt8)) := do
  takeSynthesizer
  let s ← Act.get
  let asked := PlatformRequests.askAll (.ofWorld s.platform) (phrases.map phraseDocument)
  print (String.join ((phrases.zip asked.2.2).map fun r => phraseResult r.1 r.2))
  return none

end Demo

end SpeechBridge

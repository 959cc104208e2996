import SpeechBridge.Engine.Basic

/-!
# A scripted engine

An engine whose answers are given in advance: a script of outcomes, one for each document that
is submitted, and a list of failures for the calls about voices. Nothing is rendered. With no
outcome left, a document yields no audio and no markers.
-/
namespace SpeechBridge

/-- When operations report: while a continuation is attached, or from parked jobs. -/
inductive CompletionMode where
  | inline
  | manual
  deriving DecidableEq, Repr

def CompletionMode.operation {α : Type} (mode : CompletionMode) (reports : List (Except Error α)) :
    Operation α :=
  match mode with
  | .inline => .atOnce reports
  | .manual => .parked reports

inductive Mishap where
  | rejected (e : Error)
  | synthesisFails (e : Error)
  | synthesisDropped
  | markersFail (e : Error)
  | readRejected (e : Error)
  | markersAndReadFail (e : Error)
  | readFails (e : Error)
  | readDropped
  | bytesFail (e : Error)
  deriving DecidableEq, Repr

structure Outcome where
  audio : List UInt8
  markers : List Marker
  mishap : Option Mishap
  deriving DecidableEq, Repr

def Outcome.silent : Outcome := ⟨[], [], none⟩

inductive VoiceCall where
  | voices | currentVoice | setVoice | setProperty
  deriving DecidableEq, Repr

structure PlannedFailure where
  call : VoiceCall
  times : Nat
  error : Error
  deriving DecidableEq, Repr

inductive EngineEvent where
  | submitted (document : String)
  | rejected (document : String)
  | voiceSet (index : Nat)
  | propertySet (name : String) (value : Int)
  deriving DecidableEq, Repr

structure ScriptedEngine where
  mode : CompletionMode
  script : List Outcome
  failures : List PlannedFailure
  voices : List Voice
  current : Nat
  deriving DecidableEq, Repr

namespace ScriptedEngine

def useFailure (call : VoiceCall) : List PlannedFailure → List PlannedFailure × Option Error
  | [] => ([], none)
  | f :: fs =>
    if f.call = call ∧ 0 < f.times then ({ f with times := f.times - 1 } :: fs, some f.error)
    else
      let (rest, error) := useFailure call fs
      (f :: rest, error)

def pass (call : VoiceCall) : Act ScriptedEngine EngineEvent Unit := fun s =>
  let (failures, error) := useFailure call s.failures
  ⟨{ s with failures }, [], match error with
    | some e => .error e
    | none => .ok ()⟩

def nextOutcome (s : ScriptedEngine) : Outcome := s.script.headD .silent

def synthesisReports (o : Outcome) : List (Except Error Outcome) :=
  match o.mishap with
  | some (.synthesisFails e) => [.error e]
  | some .synthesisDropped => []
  | _ => [.ok o]

def readReports (o : Outcome) : List (Except Error Outcome) :=
  match o.mishap with
  | some (.readFails e) => [.error e]
  | some .readDropped => []
  | _ => [.ok o]

def launch {α : Type} (reports : List (Except Error α)) :
    Act ScriptedEngine EngineEvent (Operation α) := fun s => ⟨s, [], .ok (s.mode.operation reports)⟩

def takeOutcome : Act ScriptedEngine EngineEvent Outcome := fun s =>
  ⟨{ s with script := s.script.tail }, [], .ok s.nextOutcome⟩

def accept (document : String) (o : Outcome) : Act ScriptedEngine EngineEvent (Operation Outcome) :=
  match o.mishap with
  | some (.rejected e) => do
    Act.note (.rejected document)
    Act.fail e
  | _ => do
    Act.note (.submitted document)
    launch (synthesisReports o)

def synthesize (document : String) : Act ScriptedEngine EngineEvent (Operation Outcome) := do
  accept document (← takeOutcome)

def markers (o : Outcome) : Act ScriptedEngine EngineEvent (List Marker) :=
  match o.mishap with
  | some (.markersFail e) | some (.markersAndReadFail e) => .fail e
  | _ => pure o.markers

def readToEnd (o : Outcome) : Act ScriptedEngine EngineEvent (Operation Outcome) :=
  match o.mishap with
  | some (.readRejected e) | some (.markersAndReadFail e) => .fail e
  | _ => launch (readReports o)

def bytes (o : Outcome) : Act ScriptedEngine EngineEvent (List UInt8) :=
  match o.mishap with
  | some (.bytesFail e) => .fail e
  | _ => pure o.audio

instance : Renderer ScriptedEngine EngineEvent Outcome Outcome where
  synthesize := synthesize
  markers := markers
  readToEnd := readToEnd
  bytes := bytes

def listVoices : Act ScriptedEngine EngineEvent (List Voice) := do
  pass .voices
  return (← Act.get).voices

def currentVoice : Act ScriptedEngine EngineEvent Voice := do
  pass .currentVoice
  let s ← Act.get
  match s.voices[s.current]? with
  | some v => return v
  | none => Act.fail (.engine "no voice")

def setVoice (index : Nat) : Act ScriptedEngine EngineEvent Unit := do
  pass .setVoice
  let s ← Act.get
  if index < s.voices.length then
    Act.modify fun s => { s with current := index }
    Act.note (.voiceSet index)
  else
    Act.fail (.voiceIndexOutOfRange index s.voices.length)

def setProperty (name : String) (value : Int) : Act ScriptedEngine EngineEvent Unit := do
  pass .setProperty
  Act.note (.propertySet name value)

instance : VoiceControl ScriptedEngine EngineEvent where
  voices := listVoices
  currentVoice := currentVoice
  setVoice := setVoice
  setProperty := setProperty

end ScriptedEngine

end SpeechBridge

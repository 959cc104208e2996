import SpeechBridge.Engine.Scripted

/-!
# Conduct of asynchronous operations

An operation of the platform calls a handler with a status. Attaching the handler can fail, be
it before or after the handler was called; then that failure is reported as well. A handler can
also be called twice, without the operation, or never.
-/
namespace SpeechBridge

inductive OperationStatus where
  | started
  | completed
  | canceled
  | error
  deriving DecidableEq, Repr

structure Conduct where
  status : OperationStatus
  missing : Bool
  twice : Bool
  drop : Bool
  attachCode : Option UInt32
  /-- Attaching fails after the handler was called, rather than instead. -/
  late : Bool
  resultsCode : Option UInt32
  errorCode : UInt32
  infoCode : Option UInt32
  deriving DecidableEq, Repr

namespace Conduct

def unspecified : UInt32 := 0x80004005

def plain : Conduct := ⟨.completed, false, false, false, none, false, none, unspecified, none⟩

def report {α : Type} (c : Conduct) (value : α) : Except Error α :=
  if c.missing then .error .missingResult
  else match c.status with
    | .completed =>
      match c.resultsCode with
      | some code => .error (.platform code)
      | none => .ok value
    | .canceled => .error .canceled
    | .started | .error =>
      match c.infoCode with
      | some code => .error (.platform code)
      | none => .error (.platform c.errorCode)

def handlerReports {α : Type} (c : Conduct) (value : α) : List (Except Error α) :=
  if c.drop then [] else if c.twice then [c.report value, c.report value] else [c.report value]

def operation {α : Type} (c : Conduct) (mode : CompletionMode) (value : α) : Operation α :=
  match c.attachCode with
  | some code =>
    .atOnce ((if c.late then c.handlerReports value else []) ++ [.error (.platform code)])
  | none => mode.operation (c.handlerReports value)

end Conduct

end SpeechBridge

import Std.Time.Format
import TxTrace.Command.Line

/-!
The program: the script of its command line, carried out. No request to a node is ever answered,
since there is no transport for them.
-/

namespace TxTrace

/-- The time, as a report shows it. -/
def timeText : IO String := do
  let now ← Std.Time.Timestamp.now
  let date := Std.Time.DateTime.ofTimestamp now Std.Time.TimeZone.ZoneRules.UTC
  return date.format "uuuu-MM-dd'T'HH:mm:ss.SSSSSSSSS" ++ "+00:00"

/-- A report written to a file, in a directory that is made if there is none. -/
def writeFile (path text : String) : IO WriteResult := do
  let file := (← IO.currentDir) / path
  if ← file.isDir then return .isDirectory
  if let some parent := file.parent then
    try IO.FS.createDirAll parent catch e => return .noParent parent.toString (toString e)
  try
    IO.FS.writeFile file text
    return .written
  catch _ => return .failed

/-- The text of a file, if it can be read. -/
def readText? (path : String) : IO (Option String) := do
  try return some (← IO.FS.readFile path) catch _ => return none

/-- The exit code of a program that a fault ends. -/
def faultCode : UInt8 := 101

/-- A script carried out, up to a fault. -/
def Script.run {α : Type} : Script α → IO (Except Machine.Fault α)
  | .done value => return .ok value
  | .fault f => return .error f
  | .print text next => do
    IO.print text
    next.run
  | .readText path next => do (next (← readText? path)).run
  | .isFile path next => do (next (← readText? path).isSome).run
  | .send _ _ next => (next .failed).run
  | .writeReport path report next => do (next (← writeFile path report.text)).run
  | .clock next => do (next (← timeText)).run

end TxTrace

/-- The program, with the tokens of its command line. -/
def main (tokens : List String) : IO UInt32 := do
  let environment ← IO.getEnv "EVM_TRACE_RPC"
  match ← (TxTrace.Command.program environment tokens).run with
  | .ok (code, messages) =>
    messages.forM IO.eprintln
    return code.toUInt32
  | .error f =>
    IO.eprintln f.message
    return TxTrace.faultCode.toUInt32

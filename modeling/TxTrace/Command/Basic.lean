import TxTrace.Node.Client
import TxTrace.Registry.Artifact

/-!
Commands, and the small ones that need no node.
-/

namespace TxTrace

/-- Why a report cannot be written or read. -/
inductive ReportError where
  | fileFailed
  | invalidJson
  | emptyPath
  | isDirectory (path : String)
  | noParent (parent reason : String)
deriving DecidableEq, Repr

def ReportError.message : ReportError → String
  | .fileFailed => "Failed to write file"
  | .invalidJson => "Failed to serialize JSON"
  | .emptyPath => "Invalid output path: Path is empty"
  | .isDirectory path => s!"Invalid output path: Path is a directory: {path}"
  | .noParent parent reason =>
    s!"Invalid output path: Cannot create directory {parent}: {reason}"

/-- Why a command failed. -/
inductive CommandError where
  | invalidHash (hash : String)
  | emptyUrl
  | contractsNotFound (path : String)
  | contracts (path : String) (cause : ArtifactError)
  | transaction (cause : Node.NodeError)
  | trace (cause : Node.NodeError)
  | writeReport (cause : ReportError)
  | invalidReport (path : String) (cause : ReportError)

def CommandError.message : CommandError → String
  | .invalidHash hash => s!"Invalid transaction hash '{hash}': expected 32 bytes of hex"
  | .emptyUrl => "RPC URL cannot be empty"
  | .contractsNotFound path => s!"Contracts file not found: {path}"
  | .contracts path _ => s!"Failed to load contracts from {path}"
  | .transaction _ => "Failed to fetch transaction"
  | .trace _ => "Failed to fetch trace from RPC"
  | .writeReport _ => "Failed to write JSON report"
  | .invalidReport path _ => s!"Invalid report file {path}"

def CommandError.cause? : CommandError → Option String
  | .contracts _ cause => some cause.message
  | .transaction cause | .trace cause => some cause.message
  | .writeReport cause | .invalidReport _ cause => some cause.message
  | _ => none

abbrev Command := ExceptT CommandError Script Unit

namespace Command

/-- A script as a part of a command. -/
def perform {α : Type} (script : Script α) : ExceptT CommandError Script α := ExceptT.lift script

def print (text : String) : Command := perform (.print text (.done ()))

def programVersion : String := "0.1.0"

def versionText : String :=
  Text.unlines [
    s!"EVM Trace Studio v{programVersion}",
    s!"Report Schema: v{reportVersion}",
    "",
    "Call-tree reconstruction and ABI decoding for EVM transaction traces."]

def version : Command := print versionText

def schemaFields : List String := [
  "Schema Structure:",
  "  version: string             - Schema version (e.g., '1.0.0')",
  "  transaction_hash: string    - Transaction hash",
  "  status: number              - 1 success, 0 failed, -1 pending",
  "  trace_available: bool       - Whether the node produced a trace",
  "  unavailable_reason: string? - Why it did not",
  "  call_trace: string?         - Rendered call tree",
  "  events: array               - Decoded events in emission order",
  "  return_value: string?       - Hex return data of a successful call",
  "  revert_msg: string?         - Revert reason of the fault origin",
  "  error: string?              - Source excerpt of the fault origin",
  "  gas_profile: array          - Gas per Contract.function",
  "  anomalies: array            - Data problems met while building",
  "  generated_at: string        - ISO 8601 timestamp"]

/-- The form of reports, with their fields if `details` are wanted. -/
def schemaText (details : Bool) : String :=
  Text.unlines <|
    ["EVM Trace Studio Report Schema", s!"Current Version: {reportVersion}", ""] ++
    if details then schemaFields else ["Use --show for detailed schema information"]

def schema (details : Bool) : Command := print (schemaText details)

/-- The report in a file. -/
def readReport (path : String) : Script (Except ReportError Report) :=
  .readText path fun
    | none => pure (.error .fileFailed)
    | some text =>
      match Report.ofText? text with
      | some report => pure (.ok report)
      | none => pure (.error .invalidJson)

/-- What a valid report says. -/
def reportSummary (r : Report) : String :=
  Text.unlines [
    "✓ Valid report JSON",
    s!"  Version: {r.version}",
    s!"  Transaction: {r.transactionHash}",
    s!"  Status: {r.status}",
    s!"  Trace available: {r.traceAvailable}",
    s!"  Events: {r.events.length}",
    s!"  Profiled functions: {r.gasProfile.length}",
    s!"  Anomalies: {r.anomalies.length}"]

/-- Whether a file holds a report. -/
def validate (path : String) : Command := do
  print s!"Validating report: {path}\n"
  match ← perform (readReport path) with
  | .ok report => print (reportSummary report)
  | .error cause => throw (.invalidReport path cause)

/-- A report written to a file. -/
def saveReport (path : String) (report : Report) : Script (Except ReportError Unit) :=
  if path.isEmpty then pure (.error .emptyPath)
  else
    .writeReport path report fun
      | .written => pure (.ok ())
      | .isDirectory => pure (.error (.isDirectory path))
      | .noParent parent reason => pure (.error (.noParent parent reason))
      | .failed => pure (.error .fileFailed)

end Command

end TxTrace

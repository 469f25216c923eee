import TxTrace.Analysis.Failure

/-!
The summary of an analysis that is written to a file, as JSON.
-/

namespace TxTrace

/-- The version of the form of reports. -/
def reportVersion : String := "1.0.0"

/-- The summary of an analysis. -/
structure Report where
  version : String
  transactionHash : String
  /-- The number of the outcome. -/
  status : Int
  traceAvailable : Bool
  unavailableReason : Option String
  callTrace : Option String
  events : List Json
  returnValue : Option String
  revertMessage : Option String
  /-- Where the failure began. -/
  error : Option String
  gasProfile : List FunctionGas
  anomalies : List String
  /-- The time of the report. -/
  generatedAt : String

namespace FunctionGas

/-- The fields of a function's gas. -/
def fields : List String :=
  ["label", "calls", "total_gas", "self_gas", "min_gas", "max_gas", "avg_gas", "percentage"]

def toJson (g : FunctionGas) : Json :=
  .obj [
    ("label", .str g.label), ("calls", .int g.calls), ("total_gas", .int g.totalGas),
    ("self_gas", .int g.selfGas), ("min_gas", .int g.minGas), ("max_gas", .int g.maxGas),
    ("avg_gas", .int g.avgGas), ("percentage", .float g.percentage)]

/-- The gas of a function in a JSON record. -/
def ofJson? (json : Json) : Option FunctionGas := do
  let r ← Json.Record.ofJson? fields fields.length json
  return {
    label := ← r.required "label" Json.str?
    calls := ← r.required "calls" Json.nat?
    totalGas := ← r.required "total_gas" Json.nat?
    selfGas := ← r.required "self_gas" Json.nat?
    minGas := ← r.required "min_gas" Json.nat?
    maxGas := ← r.required "max_gas" Json.nat?
    avgGas := ← r.required "avg_gas" Json.nat?
    percentage := ← r.required "percentage" Json.float? }

end FunctionGas

namespace Report

/-- The summary of an analysis, with `pad` lines around the excerpt of the failure. -/
def ofAnalysis (a : Analysis) (pad : Nat) (generatedAt : String) :
    Except (Machine.Halt Empty) Report := do
  let error ← (a.failure? pad).mapM id
  let gasProfile ← a.gasProfile?.getD (.ok [])
  return {
    version := reportVersion
    transactionHash := (a.transaction.hash.map Hex.ofHash).getD ""
    status := a.outcome.code
    traceAvailable := a.execution.isSome
    unavailableReason := a.unavailableReason
    callTrace := a.tree?.map (·.listing)
    events := a.events.map (·.toJson)
    returnValue := a.returnValue?.map Hex.ofBytes
    revertMessage := a.revertMessage?
    error
    gasProfile
    anomalies := a.anomalies.map (·.message)
    generatedAt }

/-- The JSON record of a report. What is not known is left out. -/
def toJson (r : Report) : Json :=
  let known (name : String) (text : Option String) : List (String × Json) :=
    (text.map fun s => (name, Json.str s)).toList
  .obj (
    [("version", .str r.version), ("transaction_hash", .str r.transactionHash),
      ("status", .int r.status), ("trace_available", .bool r.traceAvailable)] ++
    known "unavailable_reason" r.unavailableReason ++
    known "call_trace" r.callTrace ++
    [("events", .arr r.events)] ++
    known "return_value" r.returnValue ++
    known "revert_msg" r.revertMessage ++
    known "error" r.error ++
    [("gas_profile", .arr (r.gasProfile.map (·.toJson))),
      ("anomalies", .arr (r.anomalies.map Json.str)), ("generated_at", .str r.generatedAt)])

def text (r : Report) : String := r.toJson.pretty

/-- The fields of a report. -/
def fields : List String :=
  ["version", "transaction_hash", "status", "trace_available", "unavailable_reason", "call_trace",
    "events", "return_value", "revert_msg", "error", "gas_profile", "anomalies", "generated_at"]

/-- What is read of a report. -/
def shape : Json.Shape :=
  .ofFields fields [("gas_profile", .items (.ofFields FunctionGas.fields []))]

/-- The number of an outcome: a signed number of 8 bits. -/
def status? : Json → Option Int
  | .int n => if -128 ≤ n ∧ n < 128 then some n else none
  | _ => none

/-- The report in a JSON record. -/
def ofJson? (json : Json) : Option Report := do
  let r ← Json.Record.ofJson? fields fields.length json
  return {
    version := ← r.required "version" Json.str?
    transactionHash := ← r.required "transaction_hash" Json.str?
    status := ← r.required "status" status?
    traceAvailable := ← r.withDefault "trace_available" false Json.bool?
    unavailableReason := ← r.nullable "unavailable_reason" Json.str?
    callTrace := ← r.nullable "call_trace" Json.str?
    events := ← r.withDefault "events" [] (Json.list? fun event => some event.normal)
    returnValue := ← r.nullable "return_value" Json.str?
    revertMessage := ← r.nullable "revert_msg" Json.str?
    error := ← r.nullable "error" Json.str?
    gasProfile := ← r.withDefault "gas_profile" [] (Json.list? FunctionGas.ofJson?)
    anomalies := ← r.withDefault "anomalies" [] (Json.list? Json.str?)
    generatedAt := ← r.required "generated_at" Json.str? }

/-- The report in a text. -/
def ofText? (text : String) : Option Report := Json.readAs? shape text >>= ofJson?

end Report

end TxTrace

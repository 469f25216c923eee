import TxTrace.Command.Basic
import TxTrace.Text.Padding

/-!
The analysis of a transaction that a node knows, as text and as a report.
-/

namespace TxTrace

namespace LocatedStep

/-- Where a step stands in the sources. -/
def placeText (s : LocatedStep) : String :=
  match s.source with
  | none => ""
  | some location =>
    match location.place with
    | some (line, _) => s!" {location.file}:{line}"
    | none => s!" {location.file}"

def line (s : LocatedStep) : String :=
  let index := Text.padLeft 6 (toString s.index)
  let pc := Text.padLeft 6 (toString s.step.pc.toNat)
  let op := Text.padRight 14 s.step.op
  let contract := s.frame.naming.contract.getD "?"
  s!"  {index} {pc} {op} {contract}.{s.frame.naming.function}{s.placeText}\n"

end LocatedStep

def Outcome.text : Outcome → String
  | pending => "pending"
  | failed => "failed"
  | success => "success"

namespace Analysis

/-- A part of the text with a title, left out when there is nothing under it. -/
def titled (title : String) (lines : List String) : String :=
  if lines.isEmpty then "" else s!"\n{title}:\n" ++ String.join lines

/-- A part of the text, left out when there is nothing to say. -/
def part (s : Option String) (f : String → String) : String := (s.map f).getD ""

/-- What happened in the transaction `hash`: its outcome, its calls, its events, and why it failed. -/
def summary (a : Analysis) (hash : String) : String :=
  s!"\nTransaction {hash}: {a.outcome.text}\n" ++
  part a.unavailableReason (fun reason => s!"Trace unavailable: {reason}\n") ++
  part (a.tree?.map (·.listing)) (fun listing => s!"\nCall trace:\n{listing}") ++
  titled "Events" (a.events.map fun e => s!"  {e.display}\n") ++
  part a.revertMessage? (fun message => s!"\nRevert: {message}\n")

/-- On demand the steps of a transaction, and what looked wrong. -/
def details (a : Analysis) (withSteps : Bool) : String :=
  part ((if withSteps then a.locatedSteps? else none).map fun steps =>
    String.join (steps.map (·.line))) (fun steps => s!"\nSteps:\n{steps}") ++
  titled "Anomalies" (a.anomalies.map fun anomaly => s!"  {anomaly.message}\n")

end Analysis

def defaultUrl : String := "http://localhost:8545"

/-- What to analyse, and how. -/
structure AnalysisOrder where
  url : String := defaultUrl
  hash : String := ""
  contracts : Option String := none
  output : Option String := none
  /-- The lines around the excerpt of the failure. -/
  pad : Nat := 3
  withSteps : Bool := false

namespace Command

/-- Whether a text is a hash in hex. -/
def isHash (hash : String) : Bool :=
  let digits := Hex.stripMark hash.toList
  digits.length == 64 && digits.all fun c => (Hex.value? c).isSome

/-- Whether an order makes sense, before anything is sent. -/
def checkOrder (order : AnalysisOrder) : Command := do
  unless isHash order.hash do throw (.invalidHash order.hash)
  if order.url.isEmpty then throw .emptyUrl
  if let some path := order.contracts then
    unless ← perform (.isFile path pure) do throw (.contractsNotFound path)

/-- The registry in a file. -/
def readRegistry (path : String) : Script (Except ArtifactError Registry) :=
  .readText path fun
    | none => pure (.error .unreadable)
    | some text => pure (Registry.ofText text)

/-- The known contracts, of which there are none without a file. -/
def loadContracts : Option String → ExceptT CommandError Script Registry
  | none => pure .empty
  | some path => ExceptT.adapt (.contracts path) (.mk (readRegistry path))

/-- The text of an analysis. Where the transaction failed comes between the summary and the details. -/
def printAnalysis (a : Analysis) (order : AnalysisOrder) : Command := do
  print (a.summary order.hash)
  if let some failure := a.failure? order.pad then
    print s!"\n{← perform (.compute failure)}\n"
  print (a.details order.withSteps)

/-- The report of an analysis written to a file. -/
def writeReport (a : Analysis) (order : AnalysisOrder) (path : String) : Command := do
  let time ← perform (.clock pure)
  let report ← perform (.compute (Report.ofAnalysis a order.pad time))
  ExceptT.adapt .writeReport (.mk (saveReport path report))
  print s!"\nReport: {path}\n"

def analyze (order : AnalysisOrder) : Command := do
  let registry ← loadContracts order.contracts
  let tx ← ExceptT.adapt .transaction (Node.fetchTransaction order.url order.hash)
  let source ← ExceptT.adapt .trace (Node.fetchTrace order.url order.hash)
  let analysis := Analysis.ofTransaction tx source registry
  printAnalysis analysis order
  if let some path := order.output then writeReport analysis order path

end Command

end TxTrace

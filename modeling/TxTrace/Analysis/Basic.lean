import TxTrace.Analysis.Event
import TxTrace.CallTree.Build
import TxTrace.CallTree.Fault
import TxTrace.CallTree.Naming
import TxTrace.Machine.Gas
import TxTrace.Revert

/-!
The analysis of a transaction. Without a trace there is no tree, and what can be said of the
transaction comes from its receipt.
-/

namespace TxTrace

/-- The trace of a transaction as the node gave it. -/
inductive TraceSource where
  | available (trace : Json)
  | unavailable (reason : String)

/-- What a trace shows. -/
structure Execution where
  steps : Array Step
  tree : CallTree

/-- The outcome of a transaction. -/
inductive Outcome where
  | pending
  | failed
  | success
deriving DecidableEq, Repr

/-- The number of an outcome. -/
def Outcome.code : Outcome → Int
  | pending => -1
  | failed => 0
  | success => 1

/-- What is known of a transaction. -/
structure Analysis where
  transaction : Transaction
  registry : Registry
  execution : Option Execution
  /-- Why the node gave no trace, if it did not. -/
  unavailableReason : Option String
  /-- The events in the order of their emission. -/
  events : List Abi.DecodedEvent
  anomalies : List Anomaly

namespace Analysis

/-- What a trace in JSON shows, and what looked wrong with it. -/
def execute (tx : Transaction) (trace : Json) (r : Registry) : Option Execution × List Anomaly :=
  match Trace.ofJson trace with
  | .error cause => (none, [.invalidTrace cause])
  | .ok trace =>
    let dropped := trace.dropped.map fun (position, cause) => Anomaly.malformedStep position cause
    let (tree, jumps) := CallTree.ofTrace tx trace
    let (tree, undecoded) := tree.named r
    (some ⟨trace.steps, tree⟩, dropped ++ jumps.toList ++ undecoded)

/-- The analysis of a transaction. -/
def ofTransaction (tx : Transaction) (source : TraceSource) (r : Registry) : Analysis :=
  let (execution, anomalies) :=
    match source with
    | .available trace => execute tx trace r
    | .unavailable _ => (none, [])
  let events :=
    match execution with
    | some e => r.treeEvents e.tree
    | none => r.receiptEvents tx
  { transaction := tx
    registry := r
    execution
    unavailableReason :=
      match source with
      | .available _ => none
      | .unavailable reason => some reason
    events := events.map (·.1)
    anomalies := anomalies ++ events.flatMap (·.2) }

/-- The tree of calls. -/
def tree? (a : Analysis) : Option CallTree := a.execution.map (·.tree)

/-- The outermost frame. -/
def root? (a : Analysis) : Option Frame := a.tree?.map (·.root)

/-- The outermost frame, if it succeeded. -/
def succeeded? (a : Analysis) : Option Frame := a.root?.filter (·.status = .success)

/-- What the outermost call returned, if it succeeded. -/
def returnValue? (a : Analysis) : Option Bytes := a.succeeded?.map (·.output)

/-- The results of the outermost call, if it succeeded and they decode. -/
def results? (a : Analysis) : Option (List Abi.Argument) := a.succeeded?.bind (·.naming.results)

/-- The frame in which the first failure began, by position. -/
def fault? (a : Analysis) : Option Nat := a.tree?.bind (·.fault?)

/-- The frame in which the first failure began. -/
def faultFrame? (a : Analysis) : Option Frame := do (← a.tree?).frame? (← a.fault?)

end Analysis

/-- Why a failed frame failed. -/
def Registry.revertReason (r : Registry) (f : Frame) : RevertReason :=
  .ofData f.output ((r.contractOf? f).map (·.abi)) r

namespace Analysis

/-- Why the frame at a position failed, if it did. -/
def frameRevertReason? (a : Analysis) (id : Nat) : Option RevertReason := do
  let f ← (← a.tree?).frame? id
  if f.status.isFailure then some (a.registry.revertReason f) else none

/-- Why the transaction failed, if it did: why the frame failed in which the failure began. -/
def revertReason? (a : Analysis) : Option RevertReason := do
  if (← a.root?).status.isFailure then
    return a.registry.revertReason (← a.faultFrame?)
  else none

/-- Why the transaction failed, in words. An exceptional halt that returned nothing has the words of
    the machine. -/
def revertMessage? (a : Analysis) : Option String := do
  let reason ← a.revertReason?
  let f ← a.faultFrame?
  match f.error, reason with
  | some error, .silent => return if f.status = .invalid then error else reason.display
  | _, _ => return reason.display

/-- The outcome that the receipt records. -/
def receiptOutcome (a : Analysis) : Outcome :=
  match a.transaction.receipt with
  | some receipt => if receipt.status then .success else .failed
  | none => .pending

/-- The outcome of the transaction: that of the outermost frame, else that of the receipt. -/
def outcome (a : Analysis) : Outcome :=
  match a.root?.map Frame.status with
  | some .success => .success
  | some .reverted | some .invalid => .failed
  | some .unknown | none => a.receiptOutcome

/-- The gas of each function. -/
def gasProfile? (a : Analysis) : Option (Except (Machine.Halt Empty) (List FunctionGas)) :=
  a.tree?.map Machine.gasProfile

end Analysis

/-- Where a step of a frame comes from in the sources. -/
def Registry.locateStep? (r : Registry) (f : Frame) (s : Step) : Option Source.Location := do
  (← r.contractOf? f).locateIn? f.callType s.pc.toNat

/-- A step with the frame that ran it and its place in the sources. -/
structure LocatedStep where
  index : Nat
  step : Step
  /-- The position of the frame. -/
  owner : Nat
  frame : Frame
  source : Option Source.Location

/-- The steps, each with its frame and place. -/
def Analysis.locatedSteps? (a : Analysis) : Option (List LocatedStep) :=
  a.execution.map fun e =>
    e.steps.toList.zipIdx.filterMap fun (step, index) => do
      let owner ← e.tree.owner? index
      let frame ← e.tree.frame? owner
      return ⟨index, step, owner, frame, a.registry.locateStep? frame step⟩

end TxTrace

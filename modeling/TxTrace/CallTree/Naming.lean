import TxTrace.Anomaly
import TxTrace.CallTree.Frame
import TxTrace.Registry.Basic

/-!
Names for the frames of a tree, from the contracts that are known. Where a function is known its
arguments are decoded, and its results if it succeeded; each that does not decode is an anomaly.
-/

namespace TxTrace

/-- What decoding gave, with an anomaly if it failed. -/
def attempt {α : Type} (decoded : Except Abi.DecodeError α) (anomaly : Abi.DecodeError → Anomaly) :
    Option α × List Anomaly :=
  match decoded with
  | .ok a => (some a, [])
  | .error cause => (none, [anomaly cause])

namespace Contract

/-- The name of a frame that creates the contract. What follows the creation code are the arguments
    of the constructor. -/
def nameCreation (c : Contract) (id : Nat) (f : Frame) : Naming × List Anomaly :=
  let naming : Naming := { contract := some c.name, function := "constructor" }
  match c.abi.constructor, c.creationCode with
  | some constructor, some code =>
    if code.isPrefixOf f.input then
      let data := f.input.drop code.length
      let (arguments, anomalies) :=
        attempt (Abi.decodeArguments constructor.inputs data) (.undecodedInput id)
      ({ naming with arguments }, anomalies)
    else (naming, [])
  | _, _ => (naming, [])

/-- The name of what runs when no function is called. -/
def fallbackName (c : Contract) : String := if c.abi.hasFallback then "fallback" else "unknown"

/-- The name of a frame that calls the contract. -/
def nameCall (c : Contract) (id : Nat) (f : Frame) : Naming × List Anomaly :=
  if f.input.isEmpty then
    let function := if c.abi.hasReceive then "receive" else c.fallbackName
    ({ contract := some c.name, function }, [])
  else
    match f.selector?.bind c.abi.functionBySelector with
    | none => ({ contract := some c.name, function := c.fallbackName }, [])
    | some function =>
      let (arguments, inputAnomalies) :=
        attempt (Abi.decodeArguments function.inputs (f.input.drop 4)) (.undecodedInput id)
      let (results, outputAnomalies) :=
        if f.status = .success then
          attempt (Abi.decodeArguments function.outputs f.output) (.undecodedOutput id)
        else (none, [])
      ({ contract := some c.name, function := function.name, arguments, results },
        inputAnomalies ++ outputAnomalies)

end Contract

namespace Registry

/-- The name of a frame, and what did not decode. -/
def name (r : Registry) (id : Nat) (f : Frame) : Naming × List Anomaly :=
  match r.contractOf? f with
  | none => ({ function := if f.callType.isCreate then "constructor" else "unknown" }, [])
  | some c => if f.callType.isCreate then c.nameCreation id f else c.nameCall id f

end Registry

namespace CallTree

/-- The tree with names for its frames, and what did not decode, in the order of the frames. -/
def named (r : Registry) (tree : CallTree) : CallTree × List Anomaly :=
  let names := tree.frames.mapIdx r.name
  ({ tree with
      frames := tree.frames.zipWith (fun f (name : Naming × List Anomaly) => { f with naming := name.1 }) names
      frames_pos := by simpa [names] using tree.frames_pos },
    names.toList.flatMap (·.2))

end CallTree

end TxTrace

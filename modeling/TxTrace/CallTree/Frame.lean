import TxTrace.Abi.Entry
import TxTrace.Trace.Opcode
import TxTrace.Transaction

/-!
Frames, one for each call of a transaction. What the trace alone says of a frame is told apart from
its `Naming`, which needs to know the contracts.
-/

namespace TxTrace

/-- How a frame ended. -/
inductive Status where
  | success
  | reverted
  /-- By the invalid instruction or an exceptional halt. -/
  | invalid
  /-- Not before the trace did. -/
  | unknown
deriving DecidableEq, Repr, Inhabited

namespace Status

/-- Whether the frame failed. -/
def isFailure : Status → Bool
  | reverted | invalid => true
  | _ => false

def text : Status → String
  | success => "SUCCESS"
  | reverted => "REVERTED"
  | invalid => "INVALID"
  | unknown => "UNKNOWN"

end Status

/-- What is known of a frame's code: its contract and function, and the arguments and results where
    they decode. -/
structure Naming where
  contract : Option String := none
  function : String := "unknown"
  arguments : Option (List Abi.Argument) := none
  results : Option (List Abi.Argument) := none
deriving BEq, Repr, Inhabited

/-- A call or creation. Frames and steps are named by their positions. -/
structure Frame where
  parent : Option Nat
  /-- The frames called from this one, in the order of the calls. -/
  children : Array Nat := #[]
  callType : CallType
  /-- The address of the code, for a creation that of the new contract once it is known. -/
  callee : Option Address := none
  /-- The address whose storage the code acts on. -/
  context : Option Address := none
  /-- How many frames stand around this one. -/
  level : Nat
  /-- The step that made the call, when it was seen. -/
  callStep : Option Nat := none
  /-- The first step of the frame, if it ran any. -/
  start : Nat
  /-- The last step of the frame, if it ran any. -/
  stop : Option Nat := none
  status : Status := .unknown
  value : Word := 0
  input : Bytes := []
  output : Bytes := []
  /-- The logs that the frame itself emitted, in their order. -/
  logs : Array Log := #[]
  gasUsed : Nat := 0
  /-- What the machine said of an exceptional halt. -/
  error : Option String := none
  naming : Naming := {}
deriving BEq, Repr, Inhabited

namespace Frame

/-- Whether no frame called this one. -/
def isRoot (f : Frame) : Bool := f.parent.isNone

/-- Whether the contract is known. -/
def isResolved (f : Frame) : Bool := f.naming.contract.isSome

/-- The contract by its name, else by its address. -/
def contractLabel (f : Frame) : String :=
  match f.naming.contract, f.callee with
  | some name, _ => name
  | none, some address => address.checksum
  | none, none => "<unknown>"

/-- Contract and function, as in `Token.transfer`. -/
def label (f : Frame) : String := f.contractLabel ++ "." ++ f.naming.function

/-- The selector at the front of the input. Creations have none. -/
def selector? (f : Frame) : Option Selector :=
  if f.callType.isCreate then none else Selector.ofPayload? f.input

/-- The step at which the frame stopped: a frame that ran no step stops where it was called. -/
def lastStep (f : Frame) : Nat := (f.stop.or f.callStep).getD f.start

end Frame

/-- The calls of a transaction. Frames stand in the order in which they began, the outermost one
    first, so that each is followed by all that it called. -/
structure CallTree where
  frames : Array Frame
  /-- The innermost frame at each step. -/
  owners : Array Nat
  /-- There is an outermost frame. -/
  frames_pos : 0 < frames.size
deriving Repr

namespace CallTree

/-- The outermost frame. -/
def root (tree : CallTree) : Frame :=
  have := tree.frames_pos
  tree.frames[0]

/-- The frame at a position. -/
def frame? (tree : CallTree) (id : Nat) : Option Frame := tree.frames[id]?

/-- The frames that a frame called, in the order of the calls. -/
def children (tree : CallTree) (f : Frame) : List Frame :=
  f.children.toList.filterMap tree.frame?

/-- The frame that executed a step, by position. -/
def owner? (tree : CallTree) (step : Nat) : Option Nat :=
  (tree.owners[step]?).filter (· < tree.frames.size)

/-- The position of the caller of the frame at `id`. A caller precedes its callees. -/
def parent? (tree : CallTree) (id : Nat) : Option Nat :=
  (tree.frame? id >>= Frame.parent).filter (· < id)

theorem lt_of_parent?_eq_some {tree : CallTree} {id p : Nat} (h : tree.parent? id = some p) :
    p < id := by
  simpa using (Option.filter_eq_some_iff.1 h).2

/-- The positions of the frames around the frame at `id`, the nearest first. -/
def ancestors (tree : CallTree) (id : Nat) : List Nat :=
  match _h : tree.parent? id with
  | some p => p :: tree.ancestors p
  | none => []
termination_by id
decreasing_by exact lt_of_parent?_eq_some _h

end CallTree

end TxTrace

import TxTrace.Anomaly
import TxTrace.CallTree.Frame
import TxTrace.Trace.Basic

/-!
The tree of calls of a transaction, from the steps of its trace (`CallTree.ofTrace`). One pass over
the steps keeps the frames that have begun and not ended. A step that runs

* at the depth of the innermost open frame belongs to it,
* one level above it, while that frame has not ended by itself, shows that it halted exceptionally,
* at any other depth contradicts the steps before it; frames are then opened or closed until one
  has the depth of the step, and an anomaly records the jump.

Building never fails.
-/

namespace TxTrace

/-- The operands of a call, as far as the tree needs them. -/
structure Operands where
  /-- The address of the code, which a creation does not know yet. -/
  target : Option Address
  value : Word
  inputOffset : Word
  inputLength : Word
deriving DecidableEq, Repr

/-- The operands of a call on a stack, top word first. -/
def Operands.ofStack? : CallType → List Word → Option Operands
  | .call, _gas :: target :: value :: offset :: length :: _
  | .callCode, _gas :: target :: value :: offset :: length :: _ =>
    some ⟨some target.toAddress, value, offset, length⟩
  | .delegateCall, _gas :: target :: offset :: length :: _
  | .staticCall, _gas :: target :: offset :: length :: _ =>
    some ⟨some target.toAddress, 0, offset, length⟩
  | .create, value :: offset :: length :: _
  | .create2, value :: offset :: length :: _salt :: _ => some ⟨none, value, offset, length⟩
  | _, _ => none

/-- The gas between the step at `start` and the end of the step at `stop`. Amounts neither fall below
    zero nor exceed 64 bits. -/
def gasBetween (steps : Array Step) (start : Nat) (stop : Option Nat) : Nat :=
  match steps[start]?, stop.bind (steps[·]?) with
  | some first, some last =>
    min (first.gas.toNat - last.gas.toNat + last.gasCost.toNat) max64
  | _, _ => 0

/-- How a frame ends. -/
structure Ending where
  /-- The last step before the frame is left, if there is one. -/
  stop : Option Nat
  status : Status
  /-- What the frame returns, when that is known. -/
  output : Option Bytes
  error : Option String := none

namespace Frame

/-- The frame after it has ended. A last step before its first means that it ran none. -/
def finish (steps : Array Step) (ending : Ending) (f : Frame) : Frame :=
  let stop := ending.stop.filter (f.start ≤ ·)
  { f with
    stop
    status := ending.status
    output := ending.output.getD []
    gasUsed := gasBetween steps f.start stop
    error := ending.error }

/-- The frame with what the first step after it tells: a creation leaves the address of the new
    contract on the stack, and the return data is what the frame returned. -/
def settle (s : Step) (needsOutput : Bool) (f : Frame) : Frame :=
  let created := if f.callType.isCreate then s.stackTop 0 >>= Word.toAddress? else none
  { f with
    callee := created.or f.callee
    context := created.or f.context
    output := if needsOutput then s.returnData.getD f.output else f.output }

end Frame

/-- A frame that has begun and not ended. -/
structure OpenFrame where
  id : Nat
  /-- The depth at which its steps run. -/
  depth : Nat
deriving DecidableEq, Repr

/-- A frame that has just ended, of which the next step may tell more. -/
structure Settlement where
  id : Nat
  /-- What it returned could not be read from its memory. -/
  needsOutput : Bool
deriving DecidableEq, Repr

/-- A tree of calls under construction. -/
structure Progress where
  frames : Array Frame
  /-- The open frames, the innermost one first. -/
  opened : List OpenFrame
  owners : Array Nat := #[]
  anomalies : Array Anomaly := #[]
  settlement : Option Settlement := none
  /-- The first step after the outermost frame had ended, and how many there are. -/
  trailing : Option (Nat × Nat) := none
  frames_pos : 0 < frames.size

namespace Progress

/-- The tree before the first step: the outermost frame, which the transaction itself calls. -/
def ofTransaction (tx : Transaction) (steps : Array Step) : Progress where
  frames := #[{
    parent := none
    callType := if tx.isCreation then .create else .call
    callee := tx.target
    context := tx.target
    level := 0
    start := 0
    value := tx.value
    input := tx.input }]
  opened := [⟨0, (steps[0]?.map (·.depth)).getD 1⟩]
  frames_pos := by simp

/-- One more anomaly. -/
def record (b : Progress) (a : Anomaly) : Progress := { b with anomalies := b.anomalies.push a }

/-- One frame changed. -/
def modify (b : Progress) (id : Nat) (f : Frame → Frame) : Progress :=
  { b with
    frames := b.frames.modify id f
    frames_pos := by simpa using b.frames_pos }

/-- The storage context of the innermost open frame. -/
def context (b : Progress) : Option Address :=
  b.opened.head?.bind fun top => b.frames[top.id]?.bind (·.context)

/-- A frame called from the innermost open one. It is not opened. -/
def add (b : Progress) (f : Frame) : Progress :=
  match b.opened with
  | [] => b
  | top :: _ =>
    let id := b.frames.size
    let f := { f with parent := some top.id, level := b.opened.length }
    let b := b.modify top.id fun parent => { parent with children := parent.children.push id }
    { b with
      frames := b.frames.push f
      frames_pos := by simp }

/-- A frame called from the innermost open one, and opened. -/
def enter (b : Progress) (f : Frame) : Progress :=
  match b.opened with
  | [] => b
  | top :: _ => { b.add f with opened := ⟨b.frames.size, top.depth + 1⟩ :: b.opened }

/-- The innermost open frame ended. -/
def close (steps : Array Step) (ending : Ending) (b : Progress) : Progress :=
  match b.opened with
  | [] => b
  | top :: rest =>
    let b := b.modify top.id (·.finish steps ending)
    { b with
      opened := rest
      settlement := if rest.isEmpty then b.settlement else some ⟨top.id, ending.output.isNone⟩ }

@[simp]
theorem opened_record (b : Progress) (a : Anomaly) : (b.record a).opened = b.opened := rfl

@[simp]
theorem opened_close (steps : Array Step) (ending : Ending) (b : Progress) :
    (b.close steps ending).opened = b.opened.tail := by
  unfold close
  split <;> simp_all

/-! ### Depths -/

/-- The step before the step at `i`. -/
def before (i : Nat) : Option Nat := if i = 0 then none else some (i - 1)

/-- All frames above `depth` but the outermost closed, without knowing how they ended. -/
def closeAbove (steps : Array Step) (i depth : Nat) (b : Progress) : Progress :=
  match _h : b.opened with
  | top :: _ :: _ =>
    if depth < top.depth then closeAbove steps i depth (b.close steps ⟨before i, .unknown, none, none⟩)
    else b
  | _ => b
termination_by b.opened.length
decreasing_by simp [_h]

/-- So many frames opened at the step `i`, the calls of which were not seen. -/
def enterUnseen (i : Nat) : (count : Nat) → Progress → Progress
  | 0, b => b
  | count + 1, b =>
    enterUnseen i count (b.enter { parent := none, callType := .call, level := 0, start := i })

/-- The innermost open frame set to a depth. -/
def setDepth (b : Progress) (depth : Nat) : Progress :=
  match b.opened with
  | [] => b
  | top :: rest => { b with opened := { top with depth } :: rest }

/-- Frames opened or closed after a jump from the depth `source`, until the innermost one has the
    depth of the step at `i`. -/
def realign (steps : Array Step) (i source depth : Nat) (b : Progress) : Progress :=
  let b :=
    if depth < source then b.closeAbove steps i depth
    else b.enterUnseen i (min depth (maxCallDepth + 1) - source)
  b.setDepth depth

/-- The open frames brought to the depth of the step at `i`. -/
def align (steps : Array Step) (i depth : Nat) (b : Progress) : Progress :=
  match _h : b.opened with
  | [] => b
  | top :: rest =>
    if depth = top.depth then b
    else if depth + 1 = top.depth ∧ rest ≠ [] then
      let error := (before i).bind fun p => steps[p]?.bind (·.error)
      align steps i depth (b.close steps ⟨before i, .invalid, some [], error⟩)
    else (b.record (.depthJump i top.depth depth)).realign steps i top.depth depth
termination_by b.opened.length
decreasing_by simp [_h]

/-! ### Instructions -/

/-- What the step after a frame tells about it. -/
def settle (s : Step) (b : Progress) : Progress :=
  match b.settlement with
  | none => b
  | some st => { b.modify st.id (·.settle s st.needsOutput) with settlement := none }

/-- The step given to the innermost open frame. -/
def own (b : Progress) : Progress :=
  { b with owners := b.owners.push ((b.opened.head?.map (·.id)).getD 0) }

/-- How a call ended that ran no code, by the word that its caller finds on the stack. -/
def codelessStatus (next : Step) : Status :=
  match next.stackTop 0 with
  | none => .unknown
  | some word => if word = 0 then .invalid else .success

/-- The frame that a call opens. -/
def calledFrame (b : Progress) (i : Nat) (s : Step) (type : CallType) : Frame :=
  let operands := Operands.ofStack? type s.stack
  let callee := operands.bind (·.target)
  { parent := none
    callType := type
    callee
    context := if type.borrowsContext then b.context else callee
    level := 0
    callStep := some i
    start := i + 1
    value := (operands.map (·.value)).getD 0
    input := (operands.bind fun o => s.readMemory o.inputOffset o.inputLength).getD [] }

/-- A call. It opens a frame, unless the call itself halted its caller; a call whose next step runs
    at the same depth ran no code. -/
def call (steps : Array Step) (i : Nat) (s : Step) (type : CallType) (b : Progress) : Progress :=
  let next := steps[i + 1]?
  if s.error.isSome ∨ next.any (·.depth < s.depth) then b
  else
    let f := b.calledFrame i s type
    let b :=
      if (Operands.ofStack? type s.stack).isNone then b.record (.missingOperands i s.op) else b
    match next.filter (·.depth = s.depth) with
    | some next =>
      { b.add { f with status := codelessStatus next } with
        settlement := some ⟨b.frames.size, true⟩ }
    | none => b.enter f

/-- How a terminal instruction ends its frame. -/
def terminalStatus : Terminal → Status
  | .ret | .stop | .selfDestruct => .success
  | .revert => .reverted
  | .invalid => .invalid

/-- What a terminal instruction returns, when it can be read. -/
def terminalOutput (s : Step) : Terminal → Option Bytes
  | .ret | .revert =>
    match s.stack with
    | offset :: length :: _ => s.readMemory offset length
    | _ => none
  | _ => some []

/-- A terminal instruction. -/
def terminate (steps : Array Step) (i : Nat) (s : Step) (t : Terminal) (b : Progress) : Progress :=
  b.close steps {
    stop := some i
    status := terminalStatus t
    output := terminalOutput s t
    error := if t = .invalid then s.error else none }

/-- The log that an instruction with so many topics emits, of the contract `address`. -/
def logOf? (i : Nat) (s : Step) (topics : Nat) (address : Address) : Option Log :=
  match s.stack with
  | offset :: length :: rest =>
    if topics ≤ rest.length then
      some {
        address
        topics := rest.take topics
        data := (s.readMemory offset length).getD []
        step := some i }
    else none
  | _ => none

/-- A log. -/
def log (i : Nat) (s : Step) (topics : Nat) (b : Progress) : Progress :=
  match logOf? i s topics (b.context.getD 0) with
  | none => b.record (.missingOperands i s.op)
  | some log =>
    b.modify ((b.opened.head?.map (·.id)).getD 0) fun f => { f with logs := f.logs.push log }

/-- What a step does besides running. -/
def execute (steps : Array Step) (i : Nat) (s : Step) (b : Progress) : Progress :=
  match s.kind with
  | .call type => b.call steps i s type
  | .terminal t => b.terminate steps i s t
  | .log topics => b.log i s topics
  | .other => b

/-- A step after the outermost frame has ended. It is counted, and given to that frame. -/
def trail (i : Nat) (b : Progress) : Progress :=
  let (first, count) := b.trailing.getD (i, 0)
  { b with owners := b.owners.push 0, trailing := some (first, count + 1) }

/-- The step at `i`. -/
def step (steps : Array Step) (i : Nat) (s : Step) (b : Progress) : Progress :=
  if b.opened.isEmpty then b.trail i
  else ((b.align steps i s.depth).settle s).own.execute steps i s

/-- The steps from `i` on. -/
def run (steps : Array Step) : (i : Nat) → List Step → Progress → Progress
  | _, [], b => b
  | i, s :: rest, b => run steps (i + 1) rest (b.step steps i s)

/-! ### The end of the trace -/

/-- The outermost frame of a transaction that ran no code, by what the node said of it. -/
def finishEmpty (failed : Option Bool) (b : Progress) : Progress :=
  let status : Status :=
    match failed with
    | some false => .success
    | some true => .invalid
    | none => .unknown
  { b.modify 0 ({ · with status }) with opened := [] }

/-- An error on the last step halts the frame it ran in. -/
def finishError (steps : Array Step) (b : Progress) : Progress :=
  match b.opened, steps.back? with
  | top :: _, some last =>
    if last.error.isSome ∧ top.depth = last.depth then
      b.close steps ⟨some (steps.size - 1), .invalid, some [], last.error⟩
    else b
  | _, _ => b

/-- All open frames closed, without knowing how they ended. -/
def closeAll (steps : Array Step) (b : Progress) : Progress :=
  match _h : b.opened with
  | [] => b
  | _ :: _ => closeAll steps (b.close steps ⟨before steps.size, .unknown, none, none⟩)
termination_by b.opened.length
decreasing_by simp [_h]

/-- Frames that are open at the end of the trace were cut short. -/
def finishOpen (steps : Array Step) (b : Progress) : Progress :=
  if b.opened.isEmpty then b
  else (b.closeAll steps).record (.truncatedTrace b.opened.length)

/-- The outermost frame extends over the steps after its end. -/
def finishTrailing (steps : Array Step) (b : Progress) : Progress :=
  match b.trailing with
  | none => b
  | some (first, count) =>
    let stop := some (first + count - 1)
    let b := b.modify 0 fun root =>
      { root with stop, gasUsed := gasBetween steps root.start stop }
    b.record (.trailingSteps first count)

/-- The outermost frame returns what the node said, if nothing else is known. -/
def finishOutput (returnValue : Option Bytes) (b : Progress) : Progress :=
  b.modify 0 fun root =>
    { root with output := if root.output.isEmpty then returnValue.getD [] else root.output }

/-- The end of the trace. -/
def finish (trace : Trace) (b : Progress) : Progress :=
  let b := if trace.steps.isEmpty then b.finishEmpty trace.failed else b
  ((b.finishError trace.steps).finishOpen trace.steps).finishTrailing trace.steps
    |>.finishOutput trace.returnValue

end Progress

/-- The tree of calls that a trace shows, without names, and what contradicted it. -/
def CallTree.ofTrace (tx : Transaction) (trace : Trace) : CallTree × Array Anomaly :=
  let start := Progress.ofTransaction tx trace.steps
  let b := (start.run trace.steps 0 trace.steps.toList).finish trace
  (⟨b.frames, b.owners, b.frames_pos⟩, b.anomalies)

end TxTrace

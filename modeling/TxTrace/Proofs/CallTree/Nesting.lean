import TxTrace.CallTree.Build

/-!
Executions with the calls in them as trees. The machine runs the steps of such a tree in order
(`Nesting.steps`), and `Nesting.tree` is the tree of calls that it stands for, read off its nodes
without running anything.
-/

namespace TxTrace

namespace Step

/-- If the instruction is a log, the stack holds its operands and topics. -/
def HoldsTopics (s : Step) : Prop := ∀ topics, s.kind = .log topics → topics + 2 ≤ s.stack.length

def IsPlain (s : Step) : Prop := s.kind = .other ∨ ∃ topics, s.kind = .log topics

/-- The instruction makes a call and finds its operands on the stack. -/
structure MakesCall (s : Step) (type : CallType) : Prop where
  kind : s.kind = .call type
  error : s.error = none
  operands : (Operands.ofStack? type s.stack).isSome

def IsTerminal (s : Step) : Prop := ∃ t, s.kind = .terminal t

instance (s : Step) : Decidable s.HoldsTopics :=
  match hkind : s.kind with
  | .log topics => decidable_of_iff (topics + 2 ≤ s.stack.length) (by simp [HoldsTopics, hkind])
  | .call _ | .terminal _ | .other => isTrue (by simp [HoldsTopics, hkind])

instance (s : Step) : Decidable s.IsPlain :=
  match hkind : s.kind with
  | .log topics => isTrue (.inr ⟨topics, hkind⟩)
  | .other => isTrue (.inl hkind)
  | .call _ | .terminal _ => isFalse (by simp [IsPlain, hkind])

instance (s : Step) (type : CallType) : Decidable (s.MakesCall type) :=
  decidable_of_iff
    (s.kind = .call type ∧ s.error = none ∧ (Operands.ofStack? type s.stack).isSome)
    ⟨fun h => ⟨h.1, h.2.1, h.2.2⟩, fun h => ⟨h.kind, h.error, h.operands⟩⟩

instance (s : Step) : Decidable s.IsTerminal :=
  match hkind : s.kind with
  | .terminal t => isTrue ⟨t, hkind⟩
  | .call _ | .log _ | .other => isFalse (by simp [IsTerminal, hkind])

/-- The log that the step at `i` emits when it runs for the contract `address`. -/
def log? (s : Step) (i : Nat) (address : Address) : Option Log :=
  match s.kind with
  | .log topics => Progress.logOf? i s topics address
  | _ => none

/-- How the frame ends that the step is the last of: an instruction that is no terminal one halted
    exceptionally. -/
def endStatus (s : Step) : Status :=
  match s.kind with
  | .terminal .ret | .terminal .stop | .terminal .selfDestruct => .success
  | .terminal .revert => .reverted
  | _ => .invalid

theorem endStatus_of_kind {s : Step} {t : Terminal} (hkind : s.kind = .terminal t) :
    s.endStatus = Progress.terminalStatus t := by
  unfold endStatus
  rw [hkind]
  cases t <;> rfl

theorem endStatus_of_not_isTerminal {s : Step} (h : ¬ s.IsTerminal) : s.endStatus = .invalid := by
  unfold endStatus
  split
  · next hkind => exact absurd ⟨_, hkind⟩ h
  · next hkind => exact absurd ⟨_, hkind⟩ h
  · next hkind => exact absurd ⟨_, hkind⟩ h
  · next hkind => exact absurd ⟨_, hkind⟩ h
  · rfl

/-- What the frame returns that the step is the last of, unless its memory cannot be read. -/
def returned? (s : Step) : Option Bytes :=
  match s.kind with
  | .terminal .ret | .terminal .revert =>
    match s.stack with
    | offset :: length :: _ => s.readMemory offset length
    | _ => none
  | _ => some []

/-- What the machine said of the end of the frame that the step is the last of. -/
def endError (s : Step) : Option String :=
  match s.kind with
  | .terminal .ret | .terminal .stop | .terminal .selfDestruct | .terminal .revert => none
  | _ => s.error

/-- How the frame ends that the step, at position `stop`, is the last of. -/
def ending (s : Step) (stop : Nat) : Ending := ⟨some stop, s.endStatus, s.returned?, s.endError⟩

end Step

/-- The frame that makes a call. -/
structure Caller where
  id : Nat
  level : Nat
  context : Option Address

/-- The frame of a call made by the step at `i`, before any step of it. -/
def Caller.calls (caller : Caller) (i : Nat) (s : Step) (type : CallType) : Frame :=
  let operands := Operands.ofStack? type s.stack
  let callee := operands.bind (·.target)
  { parent := some caller.id
    callType := type
    callee
    context := if type.borrowsContext then caller.context else callee
    level := caller.level + 1
    callStep := some i
    start := i + 1
    value := (operands.map (·.value)).getD 0
    input := (operands.bind fun o => s.readMemory o.inputOffset o.inputLength).getD [] }

/-- The execution of a frame, with the executions of the frames that it calls. -/
inductive Nesting where
  /-- The last step, which ends the frame or halts it. -/
  | halt (closing : Step)
  | plain (s : Step) (rest : Nesting)
  /-- A call that runs no code. -/
  | codeless (type : CallType) (s : Step) (rest : Nesting)
  | call (type : CallType) (s : Step) (callee rest : Nesting)

namespace Nesting

def steps : Nesting → List Step
  | halt s => [s]
  | plain s rest => s :: rest.steps
  | codeless _ s rest => s :: rest.steps
  | call _ s callee rest => s :: (callee.steps ++ rest.steps)

def size (e : Nesting) : Nat := e.steps.length

def first : Nesting → Step
  | halt s => s
  | plain s _ => s
  | codeless _ s _ => s
  | call _ s _ _ => s

/-- The last step of the frame itself. -/
def closing : Nesting → Step
  | halt s => s
  | plain _ rest => rest.closing
  | codeless _ _ rest => rest.closing
  | call _ _ _ rest => rest.closing

/-- How many calls are made, at any level. -/
def calls : Nesting → Nat
  | halt _ => 0
  | plain _ rest => rest.calls
  | codeless _ _ rest => 1 + rest.calls
  | call _ _ callee rest => 1 + callee.calls + rest.calls

/-- The steps of the frame run at the depth `depth`, those of its callees one deeper, and each
    instruction has the operands that it needs. -/
inductive WellFormed : (depth : Nat) → Nesting → Prop
  | halt {depth : Nat} {s : Step} (hdepth : s.depth = depth) (htopics : s.HoldsTopics) :
      WellFormed depth (halt s)
  | plain {depth : Nat} {s : Step} {rest : Nesting} (hdepth : s.depth = depth)
      (htopics : s.HoldsTopics) (hplain : s.IsPlain) (hrest : WellFormed depth rest) :
      WellFormed depth (plain s rest)
  | codeless {depth : Nat} {type : CallType} {s : Step} {rest : Nesting} (hdepth : s.depth = depth)
      (hcall : s.MakesCall type) (hrest : WellFormed depth rest) :
      WellFormed depth (codeless type s rest)
  | call {depth : Nat} {type : CallType} {s : Step} {callee rest : Nesting} (hdepth : s.depth = depth)
      (hcall : s.MakesCall type) (hcallee : WellFormed (depth + 1) callee)
      (hrest : WellFormed depth rest) : WellFormed depth (call type s callee rest)

instance decidableWellFormed : (depth : Nat) → (e : Nesting) → Decidable (e.WellFormed depth)
  | depth, .halt s =>
    decidable_of_iff (s.depth = depth ∧ s.HoldsTopics)
      ⟨fun h => .halt h.1 h.2, fun | .halt hdepth htopics => ⟨hdepth, htopics⟩⟩
  | depth, .plain s rest =>
    have := decidableWellFormed depth rest
    decidable_of_iff (s.depth = depth ∧ s.HoldsTopics ∧ s.IsPlain ∧ rest.WellFormed depth)
      ⟨fun h => .plain h.1 h.2.1 h.2.2.1 h.2.2.2,
        fun | .plain hdepth htopics hplain hrest => ⟨hdepth, htopics, hplain, hrest⟩⟩
  | depth, .codeless type s rest =>
    have := decidableWellFormed depth rest
    decidable_of_iff (s.depth = depth ∧ s.MakesCall type ∧ rest.WellFormed depth)
      ⟨fun h => .codeless h.1 h.2.1 h.2.2,
        fun | .codeless hdepth hcall hrest => ⟨hdepth, hcall, hrest⟩⟩
  | depth, .call type s callee rest =>
    have := decidableWellFormed (depth + 1) callee
    have := decidableWellFormed depth rest
    decidable_of_iff
      (s.depth = depth ∧ s.MakesCall type ∧ callee.WellFormed (depth + 1) ∧ rest.WellFormed depth)
      ⟨fun h => .call h.1 h.2.1 h.2.2.1 h.2.2.2,
        fun | .call hdepth hcall hcallee hrest => ⟨hdepth, hcall, hcallee, hrest⟩⟩

/-- The execution of a whole transaction. Nothing follows by which an exceptional halt would show, so
    the machine must say so. -/
structure IsTransaction (e : Nesting) (depth : Nat) : Prop where
  wellFormed : e.WellFormed depth
  ends : e.closing.IsTerminal ∨ e.closing.error.isSome

instance (e : Nesting) (depth : Nat) : Decidable (e.IsTransaction depth) :=
  decidable_of_iff (e.WellFormed depth ∧ (e.closing.IsTerminal ∨ e.closing.error.isSome))
    ⟨fun h => ⟨h.1, h.2⟩, fun h => ⟨h.wellFormed, h.ends⟩⟩

/-! ### The tree of calls -/

/-- The positions of the frames that the frame itself calls, where `next` is that of the first. -/
def children : Nesting → (next : Nat) → List Nat
  | halt _, _ => []
  | plain _ rest, next => rest.children next
  | codeless _ _ rest, next => next :: rest.children (next + 1)
  | call _ _ callee rest, next => next :: rest.children (next + 1 + callee.calls)

/-- The logs that the frame itself emits for the contract `address`, its first step being that at
    `i`. -/
def logs : Nesting → (i : Nat) → (address : Address) → List Log
  | halt s, i, address => (s.log? i address).toList
  | plain s rest, i, address => (s.log? i address).toList ++ rest.logs (i + 1) address
  | codeless _ _ rest, i, address => rest.logs (i + 1) address
  | call _ _ callee rest, i, address => rest.logs (i + 1 + callee.size) address

/-- The frame that runs each step, where `id` runs the steps of the execution itself. -/
def owners : Nesting → (id next : Nat) → List Nat
  | halt _, id, _ => [id]
  | plain _ rest, id, next => id :: rest.owners id next
  | codeless _ _ rest, id, next => id :: rest.owners id (next + 1)
  | call _ _ callee rest, id, next =>
    id :: (callee.owners next (next + 1) ++ rest.owners id (next + 1 + callee.calls))

/-- The gas between the first step and the end of the last one. -/
def gasUsed (e : Nesting) : Nat :=
  min (e.first.gas.toNat - e.closing.gas.toNat + e.closing.gasCost.toNat) max64

/-- The frame after the execution of its steps, the first being that at `i`, where `next` is the
    position of the first frame that it calls. -/
def complete (e : Nesting) (next i : Nat) (f : Frame) : Frame :=
  { f with
    children := (e.children next).toArray
    stop := some (i + e.size - 1)
    status := e.closing.endStatus
    output := e.closing.returned?.getD []
    logs := (e.logs i (f.context.getD 0)).toArray
    gasUsed := e.gasUsed
    error := e.closing.endError }

/-- The frames of all calls, each followed by those of the calls that it makes itself. What a call
    leaves behind shows in the next step of its caller. -/
def frames : Nesting → (caller : Caller) → (next i : Nat) → List Frame
  | halt _, _, _, _ => []
  | plain _ rest, caller, next, i => rest.frames caller next (i + 1)
  | codeless type s rest, caller, next, i =>
    let f := { caller.calls i s type with status := Progress.codelessStatus rest.first }
    f.settle rest.first true :: rest.frames caller (next + 1) (i + 1)
  | call type s callee rest, caller, next, i =>
    let f := caller.calls i s type
    (callee.complete (next + 1) (i + 1) f).settle rest.first callee.closing.returned?.isNone ::
      (callee.frames ⟨next, f.level, f.context⟩ (next + 1) (i + 1) ++
        rest.frames caller (next + 1 + callee.calls) (i + 1 + callee.size))

def opening (tx : Transaction) : Frame where
  parent := none
  callType := if tx.isCreation then .create else .call
  callee := tx.target
  context := tx.target
  level := 0
  start := 0
  value := tx.value
  input := tx.input

/-- The outermost frame. What it returns is what the node said, if nothing else is known. -/
def root (e : Nesting) (tx : Transaction) (returnValue : Option Bytes) : Frame :=
  let f := e.complete 1 0 (opening tx)
  { f with output := if f.output.isEmpty then returnValue.getD [] else f.output }

/-- The tree of calls of a transaction that executes so. -/
def tree (e : Nesting) (tx : Transaction) (returnValue : Option Bytes) : CallTree where
  frames := (e.root tx returnValue :: e.frames ⟨0, 0, tx.target⟩ 1 0).toArray
  owners := (e.owners 0 1).toArray
  frames_pos := by simp

/-! ### Sizes and first steps -/

theorem steps_eq_cons (e : Nesting) : ∃ l, e.steps = e.first :: l := by
  cases e with
  | halt s => exact ⟨[], rfl⟩
  | plain s rest => exact ⟨rest.steps, rfl⟩
  | codeless type s rest => exact ⟨rest.steps, rfl⟩
  | call type s callee rest => exact ⟨callee.steps ++ rest.steps, rfl⟩

theorem size_pos (e : Nesting) : 0 < e.size := by
  obtain ⟨l, hl⟩ := e.steps_eq_cons
  simp [size, hl]

theorem size_plain (s : Step) (rest : Nesting) : (plain s rest).size = 1 + rest.size := by
  simp only [size, steps, List.length_cons]
  omega

theorem size_codeless (type : CallType) (s : Step) (rest : Nesting) :
    (codeless type s rest).size = 1 + rest.size := by
  simp only [size, steps, List.length_cons]
  omega

theorem size_call (type : CallType) (s : Step) (callee rest : Nesting) :
    (call type s callee rest).size = 1 + callee.size + rest.size := by
  simp only [size, steps, List.length_cons, List.length_append]
  omega

theorem getElem?_steps_closing (e : Nesting) : e.steps[e.size - 1]? = some e.closing := by
  rw [size, ← List.getLast?_eq_getElem?]
  induction e with
  | halt s => rfl
  | plain s rest ih =>
    obtain ⟨l, hl⟩ := rest.steps_eq_cons
    rw [steps, hl, List.getLast?_cons_cons, ← hl]
    exact ih
  | codeless type s rest ih =>
    obtain ⟨l, hl⟩ := rest.steps_eq_cons
    rw [steps, hl, List.getLast?_cons_cons, ← hl]
    exact ih
  | call type s callee rest _ ih =>
    obtain ⟨l, hl⟩ := rest.steps_eq_cons
    rw [steps, List.getLast?_cons, List.getLast?_append, ih]
    rfl

theorem WellFormed.depth_first {depth : Nat} {e : Nesting} (h : e.WellFormed depth) :
    e.first.depth = depth := by
  cases h with
  | halt hdepth | plain hdepth | codeless hdepth | call hdepth => exact hdepth

theorem WellFormed.depth_closing {depth : Nat} {e : Nesting} (h : e.WellFormed depth) :
    e.closing.depth = depth := by
  induction h with
  | halt hdepth => exact hdepth
  | plain _ _ _ _ ih => exact ih
  | codeless _ _ _ ih => exact ih
  | call _ _ _ _ _ ih => exact ih

theorem length_frames (e : Nesting) (caller : Caller) (next i : Nat) :
    (e.frames caller next i).length = e.calls := by
  induction e generalizing caller next i with
  | halt s => rfl
  | plain s rest ih => exact ih caller next (i + 1)
  | codeless type s rest ih =>
    rw [frames, List.length_cons, ih, calls]
    omega
  | call type s callee rest ihc ihr =>
    rw [frames, List.length_cons, List.length_append, ihc, ihr, calls]
    omega

end Nesting

end TxTrace

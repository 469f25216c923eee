import TxTrace.CallTree.Frame

/-!
Where a failure began. A caller mostly fails because the last call it made did, so the fault of a
transaction that failed is found by going down from the outermost frame along such calls. In one
that did not fail it is the first frame that failed and was caught.
-/

namespace TxTrace.CallTree

/-- The last item of greatest `key`. -/
def lastMax? (key : Nat → Nat) (ids : List Nat) : Option Nat :=
  ids.foldl (fun best id =>
    match best with
    | some b => if key b ≤ key id then some id else some b
    | none => some id) none

/-- The step at which the frame at a position stopped. -/
def lastStepOf (tree : CallTree) (id : Nat) : Nat := ((tree.frame? id).map (·.lastStep)).getD 0

/-- Whether the frame at a position failed. -/
def failedAt (tree : CallTree) (id : Nat) : Bool :=
  (tree.frame? id).any (·.status.isFailure)

/-- The call of the frame at `id` that ended last. Callees follow their caller. -/
def lastCallee? (tree : CallTree) (id : Nat) : Option Nat :=
  let callees := ((tree.frame? id).map (·.children.toList)).getD []
  (lastMax? tree.lastStepOf callees).filter fun c => id < c && c < tree.frames.size

theorem lastCallee?_bounds {tree : CallTree} {id c : Nat} (h : tree.lastCallee? id = some c) :
    id < c ∧ c < tree.frames.size := by
  simpa using (Option.filter_eq_some_iff.1 h).2

/-- Where the failure of the failed frame at `id` began. -/
def faultBelow (tree : CallTree) (id : Nat) : Nat :=
  match _h : tree.lastCallee? id with
  | some c => if tree.failedAt c then tree.faultBelow c else id
  | none => id
termination_by tree.frames.size - id
decreasing_by
  have := lastCallee?_bounds _h
  omega

/-- Whether the frame at `a` stopped before the one at `b`, or with it from further inside. -/
def stopsBefore (tree : CallTree) (a b : Nat) : Bool :=
  let level (id : Nat) := ((tree.frame? id).map (·.level)).getD 0
  tree.lastStepOf a < tree.lastStepOf b ||
    (tree.lastStepOf a == tree.lastStepOf b && level b < level a)

/-- The failed frame that stopped first. -/
def firstFailed? (tree : CallTree) : Option Nat :=
  ((List.range tree.frames.size).filter tree.failedAt).foldl (fun best id =>
    match best with
    | some b => if tree.stopsBefore id b then some id else some b
    | none => some id) none

/-- The frame in which the failure began, if any frame failed. -/
def fault? (tree : CallTree) : Option Nat :=
  if tree.root.status.isFailure then some (tree.faultBelow 0) else tree.firstFailed?

end TxTrace.CallTree

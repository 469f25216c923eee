import Std.Data.TreeMap
import TxTrace.CallTree.Gas
import TxTrace.Machine.Size

/-!
The gas of a transaction by function, in amounts of 64 bits. All operations on amounts but one stop at the
largest or the smallest amount. The one is the sum of what the frames that a frame called used, and where that
sum is larger there is no profile.
-/

namespace TxTrace.Machine

/-- The sum of amounts, each added to that of those before it. -/
def sum (amounts : List UInt64) : Except (Halt Empty) UInt64 := amounts.foldlM add 0

/-- The gas of the calls of one function, as it is counted. -/
structure Tally where
  /-- At most as many as there are frames in memory. -/
  calls : Nat
  total : UInt64
  own : UInt64
  least : UInt64
  greatest : UInt64

namespace Tally

def empty : Tally := ⟨0, 0, 0, last, 0⟩

/-- One more call. -/
def count (t : Tally) (gas own : UInt64) : Tally where
  calls := t.calls + 1
  total := addSat t.total gas
  own := addSat t.own own
  least := min t.least gas
  greatest := max t.greatest gas

/-- The entry of a profile for a function. -/
def entry (t : Tally) (label : String) (rootGas : Nat) : FunctionGas where
  label
  calls := t.calls
  totalGas := t.total.toNat
  selfGas := t.own.toNat
  minGas := t.least.toNat
  maxGas := t.greatest.toNat
  avgGas := t.total.toNat / max t.calls 1
  percentage := gasPercentage t.total.toNat rootGas

end Tally

/-- What was counted so far, by label. -/
abbrev Groups := Std.TreeMap String Tally

def Groups.tally (groups : Groups) (label : String) : Tally := groups.getD label .empty

/-- One more call of the function with a label. -/
def Groups.count (groups : Groups) (label : String) (gas own : UInt64) : Groups :=
  groups.insert label ((groups.tally label).count gas own)

def countFrame (tree : CallTree) (groups : Groups) (f : Frame) : Except (Halt Empty) Groups := do
  let called ← sum ((tree.children f).map fun c => .ofNat c.gasUsed)
  return groups.count f.label (.ofNat f.gasUsed) (subSat (.ofNat f.gasUsed) called)

/-- The gas of each function, the heaviest first. -/
def gasProfile (tree : CallTree) : Except (Halt Empty) (List FunctionGas) := do
  let groups ← tree.frames.toList.foldlM (countFrame tree) ∅
  let entries := groups.toList.map fun (label, t) => t.entry label tree.root.gasUsed
  return entries.mergeSort FunctionGas.precedes

end TxTrace.Machine

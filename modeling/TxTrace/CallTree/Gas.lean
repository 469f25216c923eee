import TxTrace.CallTree.Frame

/-!
What is said of the gas of a function.
-/

namespace TxTrace

/-- The gas of all calls of one function. -/
structure FunctionGas where
  /-- Contract and function. -/
  label : String
  calls : Nat
  /-- With the calls that the function made. -/
  totalGas : Nat
  /-- Without the calls that the function made. -/
  selfGas : Nat
  minGas : Nat
  maxGas : Nat
  avgGas : Nat
  /-- The share of the whole transaction's gas. -/
  percentage : Float
deriving BEq, Repr, Inhabited

/-- The share of `gas` in `total`, in percent. -/
def gasPercentage (gas total : Nat) : Float :=
  if 0 < total then (UInt64.ofNat gas).toFloat / (UInt64.ofNat total).toFloat * 100.0 else 0.0

namespace FunctionGas

/-- Whether one function stands before another: the one with more gas does, and of two with as much
    the one whose label is smaller. -/
def precedes (a b : FunctionGas) : Bool :=
  b.totalGas < a.totalGas || (a.totalGas == b.totalGas && !decide (b.label < a.label))

end FunctionGas

end TxTrace

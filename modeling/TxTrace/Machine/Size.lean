import TxTrace.Bytes
import TxTrace.Size

/-!
Computing with sizes as a machine does, in words of 64 bits. An operation that a machine cannot do is a
fault and ends the computation.
-/

namespace TxTrace.Machine

/-- What a machine cannot do: hold the result in 64 bits, divide by zero, or reach a byte that is not
    there. -/
inductive Fault where
  | overflow
  | divisionByZero
  | outOfRange
deriving DecidableEq, Repr

def Fault.message : Fault → String
  | .overflow => "a number has more than 64 bits"
  | .divisionByZero => "a divisor is zero"
  | .outOfRange => "a range is out of bounds"

/-- Why a computation has no result: a fault, or an error that the program reports. -/
inductive Halt (ε : Type) where
  | fault (f : Fault)
  | error (e : ε)
deriving DecidableEq, Repr

variable {ε : Type}

/-! ### Operations with a fault -/

def add (a b : UInt64) : Except (Halt ε) UInt64 :=
  if a.toNat + b.toNat ≤ max64 then .ok (a + b) else .error (.fault .overflow)

def sub (a b : UInt64) : Except (Halt ε) UInt64 :=
  if b ≤ a then .ok (a - b) else .error (.fault .overflow)

def div (a b : UInt64) : Except (Halt ε) UInt64 :=
  if b.toNat = 0 then .error (.fault .divisionByZero) else .ok (a / b)

/-- The first `n` bytes. -/
def take (bs : Bytes) (n : UInt64) : Except (Halt ε) Bytes :=
  if n.toNat ≤ bs.length then .ok (bs.take n.toNat) else .error (.fault .outOfRange)

/-- The bytes, copied into an array of `len`. -/
def copy (len : UInt64) (bs : Bytes) : Except (Halt ε) Bytes :=
  if bs.length = len.toNat then .ok bs else .error (.fault .outOfRange)

/-! ### Operations without one -/

def add? (a b : UInt64) : Option UInt64 :=
  if a.toNat + b.toNat ≤ max64 then some (a + b) else none

def mul? (a b : UInt64) : Option UInt64 :=
  if a.toNat * b.toNat ≤ max64 then some (a * b) else none

/-- The largest size. -/
def last : UInt64 := UInt64.ofNat max64

/-- The sum, or the largest size. -/
def addSat (a b : UInt64) : UInt64 := (add? a b).getD last

/-- The product, or the largest size. -/
def mulSat (a b : UInt64) : UInt64 := (mul? a b).getD last

/-- The difference, or zero. -/
def subSat (a b : UInt64) : UInt64 := if b ≤ a then a - b else 0

def length (bs : Bytes) : UInt64 := UInt64.ofNat bs.length

/-- The bytes from `start` up to `stop`. -/
def get? (bs : Bytes) (start stop : UInt64) : Option Bytes :=
  if start ≤ stop ∧ stop ≤ length bs then
    some ((bs.drop start.toNat).take (stop.toNat - start.toNat))
  else none

end TxTrace.Machine

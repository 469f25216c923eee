import TxTrace.Quantity
import TxTrace.Trace.Opcode

/-!
Executed instructions, with what the machine showed just before each of them. `length_readMemory`
says that memory is read at any length asked for: it continues with zeros past what was captured.
-/

namespace TxTrace

/-- How deep calls may nest. The outermost call runs at depth 1, so steps run at most one deeper. -/
def maxCallDepth : Nat := 1024

/-- The most bytes that one read of memory may ask for. -/
def maxMemoryRead : Nat := 16 * 1024 * 1024

/-- An executed instruction. -/
structure Step where
  pc : UInt64
  /-- The mnemonic, as the node spells it. -/
  op : String
  /-- How many calls are open, the outermost one counted. -/
  depth : Nat
  gas : UInt64
  gasCost : UInt64
  /-- The words on the stack, the top one first. -/
  stack : List Word
  /-- The memory, when it was captured. -/
  memory : Option Bytes
  /-- The storage slots touched so far, sorted by slot, when they were captured. -/
  storage : Option (List (Word × Word))
  /-- What the most recent call returned, when it was captured. -/
  returnData : Option Bytes
  error : Option String
deriving DecidableEq, Repr, Inhabited

namespace Step

/-- What the instruction does to the tree of calls. -/
def kind (s : Step) : OpKind := OpKind.classify s.op

/-- The word `n` places below the top of the stack. -/
def stackTop (s : Step) (n : Nat) : Option Word := s.stack[n]?

/-- The `len` bytes of memory at `offset`. There is no answer when memory was not captured, when the
    region is absurdly large, or when it does not lie in 64 bits; no bytes at all are always there. -/
def readMemory (s : Step) (offset len : Word) : Option Bytes :=
  if len = 0 then some []
  else if maxMemoryRead < len.toNat then none
  else
    match s.memory with
    | none => none
    | some memory =>
      if offset.toNat + len.toNat ≤ max64 then some (memory.window offset.toNat len.toNat) else none

theorem length_readMemory {s : Step} {offset len : Word} {bs : Bytes}
    (h : s.readMemory offset len = some bs) : bs.length = len.toNat := by
  unfold readMemory at h
  split at h
  · next hlen => simp_all
  · split at h
    · simp at h
    · split at h
      · simp at h
      · split at h
        · rw [← Option.some.inj h, Bytes.length_window]
        · simp at h

end Step

end TxTrace

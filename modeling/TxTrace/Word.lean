import TxTrace.Bytes

/-!
Machine words, account addresses and function selectors, with their big-endian byte forms.
-/

namespace TxTrace

/-- A 256-bit word: a stack item, an integer, or a hash. -/
abbrev Word := BitVec 256

/-- A 20-byte account address. -/
abbrev Address := BitVec 160

/-- The first four bytes of a signature's hash. -/
abbrev Selector := BitVec 32

namespace Word

/-- The word that a number is, unless it has more than 256 bits. -/
def ofNat? (n : Nat) : Option Word :=
  let w := BitVec.ofNat 256 n
  if w.toNat = n then some w else none

/-- The 32 bytes of a word. -/
def toBytes (w : Word) : Bytes := Bytes.ofNat 32 w.toNat

/-- The word whose bytes are `bs`, the last 32 of them if there are more. -/
def ofBytes (bs : Bytes) : Word := BitVec.ofNat 256 bs.toNat

/-- The address in the low 20 bytes of a word. -/
def toAddress (w : Word) : Address := w.setWidth 160

/-- The address in the low 20 bytes of a word, none for the word zero. -/
def toAddress? (w : Word) : Option Address :=
  if w = 0 then none else some w.toAddress

@[simp]
theorem length_toBytes (w : Word) : w.toBytes.length = 32 := by
  simp [toBytes]

end Word

namespace Address

/-- The word that holds an address in its low 20 bytes. -/
def toWord (a : Address) : Word := a.setWidth 256

/-- The 20 bytes of an address. -/
def toBytes (a : Address) : Bytes := Bytes.ofNat 20 a.toNat

/-- The address whose bytes are `bs`, for exactly 20 bytes. -/
def ofBytes? (bs : Bytes) : Option Address :=
  if bs.length = 20 then some (BitVec.ofNat 160 bs.toNat) else none

@[simp]
theorem toAddress_toWord (a : Address) : a.toWord.toAddress = a := by
  simp [toWord, Word.toAddress]

end Address

namespace Selector

/-- The four bytes of a selector. -/
def toBytes (s : Selector) : Bytes := Bytes.ofNat 4 s.toNat

/-- The selector whose bytes are `bs`, for exactly four bytes. -/
def ofBytes? (bs : Bytes) : Option Selector :=
  if bs.length = 4 then some (BitVec.ofNat 32 bs.toNat) else none

/-- The selector at the front of a payload of at least four bytes. -/
def ofPayload? (payload : Bytes) : Option Selector := ofBytes? (payload.take 4)

@[simp]
theorem length_toBytes (s : Selector) : s.toBytes.length = 4 := by
  simp [toBytes]

end Selector

end TxTrace

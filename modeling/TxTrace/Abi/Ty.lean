import TxTrace.Text.Numeral

/-!
Types of the contract ABI: their canonical text, whether a value of a type is laid out behind an
offset, and how many bytes it takes where it stands.
-/

namespace TxTrace.Abi

/-- A size between 1 and 32 bytes. -/
structure Width where
  index : Fin 32
deriving DecidableEq, Repr, Inhabited

namespace Width

def bytes (w : Width) : Nat := w.index + 1

def bits (w : Width) : Nat := 8 * w.bytes

/-- The width of `n` bytes. -/
def ofBytes? (n : Nat) : Option Width :=
  if h : 1 ≤ n ∧ n ≤ 32 then some ⟨⟨n - 1, by omega⟩⟩ else none

/-- The width of `n` bits, a multiple of eight. -/
def ofBits? (n : Nat) : Option Width :=
  if n % 8 = 0 then ofBytes? (n / 8) else none

def word : Width := ⟨Fin.last 31⟩

end Width

/-- A member of a tuple, with the name it was declared with. -/
structure Member (α : Type) where
  name : Option String
  val : α
deriving BEq, Repr, Inhabited

def Member.unnamed {α : Type} (val : α) : Member α := ⟨none, val⟩

/-- A type of the contract ABI. `function` is a reference to an external function: an address and a
    selector. -/
inductive Ty where
  | address
  | bool
  | uint (width : Width)
  | int (width : Width)
  | fixedBytes (width : Width)
  | function
  | bytes
  | string
  | array (elem : Ty)
  | fixedArray (elem : Ty) (size : UInt64)
  | tuple (members : List (Member Ty))
deriving BEq, Repr, Inhabited

namespace Ty

mutual

/-- The text of a type in signatures. -/
def canonical : Ty → String
  | address => "address"
  | bool => "bool"
  | uint w => "uint" ++ toString w.bits
  | int w => "int" ++ toString w.bits
  | fixedBytes w => "bytes" ++ toString w.bytes
  | function => "function"
  | bytes => "bytes"
  | string => "string"
  | array elem => elem.canonical ++ "[]"
  | fixedArray elem size => elem.canonical ++ "[" ++ toString size.toNat ++ "]"
  | tuple members => "(" ++ ",".intercalate (canonicalMembers members) ++ ")"

def canonicalMembers : List (Member Ty) → List String
  | [] => []
  | m :: ms => m.val.canonical :: canonicalMembers ms

end

mutual

/-- Whether a value of the type stands in the tail, behind an offset. -/
def isDynamic : Ty → Bool
  | bytes | string | array _ => true
  | fixedArray elem _ => elem.isDynamic
  | tuple members => anyDynamic members
  | _ => false

def anyDynamic : List (Member Ty) → Bool
  | [] => false
  | m :: ms => m.val.isDynamic || anyDynamic ms

end

mutual

/-- The bytes that a value takes in the head of the sequence it stands in: an offset when it is
    dynamic, else its whole encoding. Sizes stop at the largest one. -/
def headSize : Ty → Nat
  | fixedArray elem size =>
    if elem.isDynamic then 32 else min (elem.headSize * size.toNat) max64
  | tuple members => if anyDynamic members then 32 else min (headSizes members) max64
  | _ => 32

def headSizes : List (Member Ty) → Nat
  | [] => 0
  | m :: ms => m.val.headSize + headSizes ms

end

/-- Types that fit one word. An indexed event parameter of any other type is only known by its
    hash. -/
def isElementary : Ty → Bool
  | address | bool | uint _ | int _ | fixedBytes _ | function => true
  | _ => false

def word : Ty := fixedBytes Width.word

end Ty

/-- The members of an array with `count` items. -/
def equalMembers (elem : Ty) (count : Nat) : List (Member Ty) :=
  List.replicate count (.unnamed elem)

end TxTrace.Abi

import TxTrace.Abi.Encode
import TxTrace.Machine.Size

/-!
Encoding on a machine, where offsets have 64 bits. The offset of a dynamic value is the length of the head
and that of the tail so far, and a sum of both that is larger is a fault.
-/

namespace TxTrace.Machine

open Abi (EncodeError Member Ty Value equalMembers sizeWord)

/-! ### Sizes of types -/

mutual

/-- The bytes that a value takes in the head. -/
def headSize : Ty → UInt64
  | .fixedArray elem size => if elem.isDynamic then 32 else mulSat (headSize elem) size
  | .tuple members => if Ty.anyDynamic members then 32 else headSizes 0 members
  | _ => 32

/-- The bytes that the members of a tuple take, after `sum`. -/
def headSizes (sum : UInt64) : List (Member Ty) → UInt64
  | [] => sum
  | m :: ms => headSizes (addSat sum (headSize m.val)) ms

end

/-! ### Encoding -/

/-- A size and the length of bytes that were written. -/
def addLength (a : UInt64) (bs : Bytes) : Except (Halt EncodeError) UInt64 :=
  if a.toNat + bs.length ≤ max64 then .ok (a + length bs) else .error (.fault .overflow)

/-- What is written of a sequence: its head and its tail. -/
structure Written where
  head : Bytes
  tail : Bytes

namespace Written

def empty : Written := ⟨[], []⟩

def bytes (w : Written) : Bytes := w.head ++ w.tail

/-- The encoding of the next member of a sequence whose head takes `headLen` bytes. -/
def put (w : Written) (isDynamic : Bool) (headLen : UInt64) (content : Bytes) :
    Except (Halt EncodeError) Written :=
  if isDynamic then do
    let offset ← addLength headLen w.tail
    return ⟨w.head ++ sizeWord offset.toNat, w.tail ++ content⟩
  else return ⟨w.head ++ content, w.tail⟩

end Written

/-- The items of an array, each encoded by `encode`. -/
def encodeItems (encode : Value → Except (Halt EncodeError) Bytes) (isDynamic : Bool)
    (headLen : UInt64) (w : Written) : List Value → Except (Halt EncodeError) Written
  | [] => .ok w
  | v :: vs => do
    let content ← encode v
    let w ← w.put isDynamic headLen content
    encodeItems encode isDynamic headLen w vs

mutual

/-- The encoding of a value. What has no members needs no offsets. -/
def encodeValue (ty : Ty) (v : Value) : Except (Halt EncodeError) Bytes :=
  match ty, v with
  | .array elem, .array items => do
    let w ← encodeItems (encodeValue elem) elem.isDynamic
      (headSizes 0 (equalMembers elem items.length)) .empty items
    return sizeWord items.length ++ w.bytes
  | .fixedArray elem size, .fixedArray items =>
    if items.length = size.toNat then do
      let w ← encodeItems (encodeValue elem) elem.isDynamic
        (headSizes 0 (equalMembers elem items.length)) .empty items
      return w.bytes
    else .error (.error (.typeMismatch (.fixedArray elem size) (.fixedArray items)))
  | .tuple members, .tuple fields =>
    if members.length = fields.length then do
      let w ← encodeMembers members (headSizes 0 members) .empty (fields.map (·.val))
      return w.bytes
    else .error (.error (.typeMismatch (.tuple members) (.tuple fields)))
  | ty, v => (Abi.encodeValue ty v).mapError .error

def encodeMembers (members : List (Member Ty)) (headLen : UInt64) (w : Written)
    (values : List Value) : Except (Halt EncodeError) Written :=
  match members, values with
  | m :: ms, v :: vs => do
    let content ← encodeValue m.val v
    let w ← w.put m.val.isDynamic headLen content
    encodeMembers ms headLen w vs
  | _, _ => .ok w

end

def encode (types : List Ty) (values : List Value) : Except (Halt EncodeError) Bytes :=
  if types.length = values.length then do
    let members := types.map Member.unnamed
    let w ← encodeMembers members (headSizes 0 members) .empty values
    return w.bytes
  else .error (.error (.lengthMismatch types.length values.length))

/-- The payload of a call: a selector and the encoded arguments. -/
def encodeCall (selector : Selector) (types : List Ty) (values : List Value) :
    Except (Halt EncodeError) Bytes := do
  let body ← encode types values
  return selector.toBytes ++ body

end TxTrace.Machine

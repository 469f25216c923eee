import TxTrace.Abi.Value

/-!
The head and tail layout of values. In a sequence a static value stands in the head; a dynamic one
leaves there the offset of its encoding, which stands in the tail. Offsets count from the start of
the head. They are numbers of any size here; where they have 64 bits, as when the program encodes
(`Machine.encode`), one that is larger ends the encoding.
-/

namespace TxTrace.Abi

/-- Why values have no encoding. -/
inductive EncodeError where
  | lengthMismatch (expected found : Nat)
  | typeMismatch (expected : Ty) (found : Value)

def EncodeError.message : EncodeError → String
  | .lengthMismatch expected found => s!"Expected {expected} values, got {found}"
  | .typeMismatch expected found =>
    s!"Value {found.display} does not match type {expected.canonical}"

/-- The word of a size or an offset. -/
def sizeWord (n : Nat) : Bytes := Bytes.ofNat 32 n

/-- A byte string behind its length, with zeros up to a whole number of words. -/
def lengthPrefixed (bs : Bytes) : Bytes := sizeWord bs.length ++ bs.padRight

/-- The encoding of one member of a sequence. -/
structure Piece where
  isDynamic : Bool
  content : Bytes
deriving Repr

/-- The head and the tail of a sequence, `offset` being that of the end of the tail so far. -/
def layoutFrom : (offset : Nat) → List Piece → Bytes × Bytes
  | _, [] => ([], [])
  | offset, p :: ps =>
    if p.isDynamic then
      let (head, tail) := layoutFrom (offset + p.content.length) ps
      (sizeWord offset ++ head, p.content ++ tail)
    else
      let (head, tail) := layoutFrom offset ps
      (p.content ++ head, tail)

/-- A sequence whose head takes `headSize` bytes. -/
def layout (headSize : Nat) (pieces : List Piece) : Bytes :=
  (layoutFrom (min headSize max64) pieces).1 ++ (layoutFrom (min headSize max64) pieces).2

/-- Whether an unsigned integer has at most `bits` bits: nothing but zeros stands above them. -/
def fitsUnsigned (word : Word) (bits : Nat) : Bool := (word.setWidth bits).setWidth 256 == word

/-- Whether a signed integer has at most `bits` bits: nothing but copies of its sign stands above
    them. -/
def fitsSigned (word : Word) (bits : Nat) : Bool := (word.setWidth bits).signExtend 256 == word

mutual

/-- The encoding of a value of type `ty`. -/
def encodeValue (ty : Ty) (v : Value) : Except EncodeError Bytes :=
  match ty, v with
  | .address, .address a => .ok a.toWord.toBytes
  | .bool, .bool b => .ok (sizeWord b.toNat)
  | .uint w, .uint word bits =>
    if fitsUnsigned word w.bits then .ok word.toBytes
    else .error (.typeMismatch (.uint w) (.uint word bits))
  | .int w, .int word bits =>
    if fitsSigned word w.bits then .ok word.toBytes
    else .error (.typeMismatch (.int w) (.int word bits))
  | .fixedBytes w, .fixedBytes bs =>
    if bs.length = w.bytes then .ok bs.padRight
    else .error (.typeMismatch (.fixedBytes w) (.fixedBytes bs))
  | .function, .fixedBytes bs =>
    if bs.length = 24 then .ok bs.padRight else .error (.typeMismatch .function (.fixedBytes bs))
  | .bytes, .bytes bs => .ok (lengthPrefixed bs)
  | .string, .string s => .ok (lengthPrefixed (Text.utf8 s))
  | .array elem, .array items => do
    let contents ← items.mapM (encodeValue elem)
    let pieces := contents.map (Piece.mk elem.isDynamic)
    return sizeWord items.length ++ layout (items.length * elem.headSize) pieces
  | .fixedArray elem size, .fixedArray items =>
    if items.length = size.toNat then do
      let contents ← items.mapM (encodeValue elem)
      let pieces := contents.map (Piece.mk elem.isDynamic)
      return layout (items.length * elem.headSize) pieces
    else .error (.typeMismatch (.fixedArray elem size) (.fixedArray items))
  | .tuple members, .tuple fields =>
    if members.length = fields.length then do
      let pieces ← encodeMembers members (fields.map (·.val))
      return layout (Ty.headSizes members) pieces
    else .error (.typeMismatch (.tuple members) (.tuple fields))
  | ty, v => .error (.typeMismatch ty v)

def encodeMembers : List (Member Ty) → List Value → Except EncodeError (List Piece)
  | m :: ms, v :: vs => do
    let content ← encodeValue m.val v
    let pieces ← encodeMembers ms vs
    return ⟨m.val.isDynamic, content⟩ :: pieces
  | _, _ => return []

end

/-- The encoding of values as a sequence of the given types. -/
def encode (types : List Ty) (values : List Value) : Except EncodeError Bytes :=
  if types.length = values.length then do
    let members := types.map Member.unnamed
    let pieces ← encodeMembers members values
    return layout (Ty.headSizes members) pieces
  else .error (.lengthMismatch types.length values.length)

/-- The payload of a call: a selector and the encoded arguments. -/
def encodeCall (selector : Selector) (types : List Ty) (values : List Value) :
    Except EncodeError Bytes := do
  let body ← encode types values
  return selector.toBytes ++ body

end TxTrace.Abi

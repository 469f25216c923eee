import TxTrace.Abi.Value

/-!
Reading values from their head and tail layout. Every read is checked against the end of the data,
bytes that no value needs are ignored, and the declared width of an integer is not enforced.
-/

namespace TxTrace.Abi

/-- Why data does not decode. -/
inductive DecodeError where
  /-- Fewer bytes than a value needs. -/
  | insufficientData (offset needed available : Nat)
  /-- An offset that leads past the largest position. -/
  | offsetOverflows (offset : Nat)
  /-- A length or an offset beyond every position. -/
  | notInMemory (value : Nat)
  /-- An array with more elements than the rest of the data can hold. -/
  | arrayTooLong (length : Nat)
  /-- A fixed array whose size in bytes is beyond every position. -/
  | fixedArrayTooLarge (size : Nat)
  /-- No topic at `index` for an indexed parameter. -/
  | missingTopic (index : Nat)
deriving DecidableEq, Repr

def DecodeError.message : DecodeError → String
  | .insufficientData offset needed available =>
    s!"Insufficient data: need {needed} bytes at offset {offset}, have {available}"
  | .offsetOverflows offset => s!"Offset or length out of range: offset {offset} overflows"
  | .notInMemory value => s!"Offset or length out of range: {value} does not fit in memory"
  | .arrayTooLong length =>
    s!"Offset or length out of range: array length {length} exceeds remaining data"
  | .fixedArrayTooLarge size =>
    s!"Offset or length out of range: fixed array of {size} elements is too large"
  | .missingTopic index => s!"Missing topic {index} for indexed parameter"

/-- The `len` bytes of `data` at `pos`. -/
def readBytes (data : Bytes) (pos len : Nat) : Except DecodeError Bytes :=
  match data.slice? pos len with
  | some bs => .ok bs
  | none => .error (.insufficientData pos len (data.length - pos))

/-- The word of `data` at `pos`. -/
def readWord (data : Bytes) (pos : Nat) : Except DecodeError Word :=
  (readBytes data pos 32).map Word.ofBytes

/-- The length or offset of `data` at `pos`. -/
def readSize (data : Bytes) (pos : Nat) : Except DecodeError Nat := do
  let word ← readWord data pos
  if word.toNat ≤ max64 then return word.toNat else throw (.notInMemory word.toNat)

/-- The byte string of `data` at `pos`, behind its length. -/
def readLengthPrefixed (data : Bytes) (pos : Nat) : Except DecodeError Bytes := do
  let len ← readSize data pos
  readBytes data (pos + 32) len

/-- What `read` finds for the member of a sequence whose head entry is at `cursor`: there, or for a
    dynamic member at the offset that the entry holds. Offsets count from `base`. -/
def readMember {α : Type} (read : Nat → Except DecodeError α) (isDynamic : Bool) (data : Bytes)
    (base cursor : Nat) : Except DecodeError α :=
  if isDynamic then do
    let offset ← readSize data cursor
    if base + offset ≤ max64 then read (base + offset) else throw (.offsetOverflows offset)
  else read cursor

/-- The head position after an entry of `size` bytes at `cursor`. -/
def advance (cursor size : Nat) : Nat := min (cursor + size) max64

/-- What `read` finds at `count` head positions, `size` bytes apart from `cursor` on. -/
def readRun {α : Type} (read : Nat → Except DecodeError α) (size : Nat) :
    (count cursor : Nat) → Except DecodeError (List α)
  | 0, _ => .ok []
  | count + 1, cursor => do
    let v ← read cursor
    let vs ← readRun read size count (advance cursor size)
    return v :: vs

mutual

/-- The value of type `ty` whose encoding stands in `data` at `pos`. -/
def decodeValue (ty : Ty) (data : Bytes) (pos : Nat) : Except DecodeError Value :=
  match ty with
  | .address => do return .address (← readWord data pos).toAddress
  | .bool => do return .bool ((← readWord data pos) != 0)
  | .uint w => do return .uint (← readWord data pos) w.bits
  | .int w => do return .int (← readWord data pos) w.bits
  | .fixedBytes w => do return .fixedBytes ((← readBytes data pos 32).take w.bytes)
  | .function => do return .fixedBytes ((← readBytes data pos 32).take 24)
  | .bytes => do return .bytes (← readLengthPrefixed data pos)
  | .string => do return .string (Text.ofUtf8Lossy (← readLengthPrefixed data pos))
  | .array elem => do
    let count ← readSize data pos
    let start := pos + 32
    if (data.length - start) / max elem.headSize 32 < count then throw (.arrayTooLong count)
    let items ← readRun (readMember (decodeValue elem data) elem.isDynamic data start)
      elem.headSize count start
    return .array items
  | .fixedArray elem size => do
    if max64 < elem.headSize * size.toNat then throw (.fixedArrayTooLarge size.toNat)
    let _ ← readBytes data pos (elem.headSize * size.toNat)
    let items ← readRun (readMember (decodeValue elem data) elem.isDynamic data pos)
      elem.headSize size.toNat pos
    return .fixedArray items
  | .tuple members => do return .tuple (← decodeMembers members data pos pos)

/-- The members of a tuple whose head starts in `data` at `base`, from the one with the head entry
    at `cursor` on. -/
def decodeMembers (members : List (Member Ty)) (data : Bytes) (base cursor : Nat) :
    Except DecodeError (List (Member Value)) :=
  match members with
  | [] => .ok []
  | m :: ms => do
    let v ← readMember (decodeValue m.val data) m.val.isDynamic data base cursor
    let vs ← decodeMembers ms data base (advance cursor m.val.headSize)
    return ⟨m.name, v⟩ :: vs

end

/-- The values of a sequence of the given types at the start of `data`. -/
def decode (types : List Ty) (data : Bytes) : Except DecodeError (List Value) := do
  let fields ← decodeMembers (types.map Member.unnamed) data 0 0
  return fields.map (·.val)

end TxTrace.Abi

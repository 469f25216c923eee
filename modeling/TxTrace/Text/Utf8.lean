import TxTrace.Bytes

/-!
UTF-8: the bytes of a text, and the text of any byte string. Bytes that form no character are read
as U+FFFD, one for each longest run of bytes that starts some character but is cut short, and one
for each byte that starts none.
-/

namespace TxTrace.Text

/-- The bytes of a text. -/
def utf8 (s : String) : Bytes := s.toList.flatMap String.utf8EncodeChar

/-- What stands for bytes that form no character. -/
def replacement : Char := '\uFFFD'

/-- Where a reader stands: between characters, or inside one that still needs `more + 1` bytes, the
    next of them in `[low, high]`, with `bits` read so far. -/
inductive Utf8State where
  | between
  | inside (more : Nat) (low high : UInt8) (bits : Nat)
deriving DecidableEq, Repr

namespace Utf8State

/-- The first byte of a character: what it completes, and where the reader stands after it. -/
def first (b : UInt8) : List Char × Utf8State :=
  if b < 0x80 then ([Char.ofNat b.toNat], between)
  else if b < 0xC2 then ([replacement], between)
  else if b < 0xE0 then ([], inside 0 0x80 0xBF (b.toNat - 0xC0))
  else if b < 0xF0 then
    let low := if b = 0xE0 then 0xA0 else 0x80
    let high := if b = 0xED then 0x9F else 0xBF
    ([], inside 1 low high (b.toNat - 0xE0))
  else if b < 0xF5 then
    let low := if b = 0xF0 then 0x90 else 0x80
    let high := if b = 0xF4 then 0x8F else 0xBF
    ([], inside 2 low high (b.toNat - 0xF0))
  else ([replacement], between)

/-- One byte read: the characters it completes, and where the reader stands after it. A byte that
    cannot go on with the character at hand ends it and is read again as a first byte. -/
def step : Utf8State → UInt8 → List Char × Utf8State
  | between, b => first b
  | inside more low high bits, b =>
    if low ≤ b ∧ b ≤ high then
      let bits := bits * 64 + (b.toNat - 0x80)
      match more with
      | 0 => ([Char.ofNat bits], between)
      | more + 1 => ([], inside more 0x80 0xBF bits)
    else
      let (out, state) := first b
      (replacement :: out, state)

/-- What the end of the bytes completes: a character that was begun is cut short. -/
def finish : Utf8State → List Char
  | between => []
  | inside .. => [replacement]

end Utf8State

/-- The characters that the bytes `bs` complete, read from `state`. -/
def readUtf8 : (state : Utf8State) → (bs : Bytes) → List Char
  | state, [] => state.finish
  | state, b :: bs => (state.step b).1 ++ readUtf8 (state.step b).2 bs

/-- The text of a byte string, U+FFFD standing for bytes that form no character. -/
def ofUtf8Lossy (bs : Bytes) : String := String.ofList (readUtf8 .between bs)

/-- The text of a byte string that is all characters. -/
def ofUtf8? (bs : Bytes) : Option String :=
  let s := ofUtf8Lossy bs
  if utf8 s = bs then some s else none

end TxTrace.Text

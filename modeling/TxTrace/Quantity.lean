import TxTrace.Json.Printer

/-!
Numbers and bytes as nodes print them: JSON numbers, decimal text, or hex text with or without
`0x`.
-/

namespace TxTrace

/-- Why a text is not a 256-bit word in hex. -/
inductive WordError where
  /-- The first byte from the right that is no digit. -/
  | invalidDigit (byte : UInt8)
  | tooLarge
deriving DecidableEq, Repr

/-- The wording of a word error. A byte is shown as the character of its own number. -/
def WordError.message : WordError → String
  | .invalidDigit byte => "invalid digit: " ++ String.singleton (Char.ofNat byte.toNat)
  | .tooLarge => "the value is too large to fit the target type"

/-- Why a piece of a trace is not in the form it should have. -/
inductive FormatError where
  | hexQuantity (cause : Text.NumeralError)
  | decimalQuantity (cause : Text.NumeralError)
  /-- Neither a number of 64 bits nor a text. -/
  | notQuantity (found : Json)
  | word (text : String) (cause : WordError)
  | hexBytes (cause : Hex.Error)
  /-- A whole trace that is neither an object nor an array. -/
  | notTrace

def FormatError.message : FormatError → String
  | .hexQuantity cause => s!"Invalid trace format: Invalid hex quantity: {cause.message}"
  | .decimalQuantity cause => s!"Invalid trace format: Invalid decimal quantity: {cause.message}"
  | .notQuantity found => s!"Invalid trace format: Expected number or string, found {found.compact}"
  | .word text cause => s!"Invalid trace format: Invalid word '{text}': {cause.message}"
  | .hexBytes cause => s!"Invalid trace format: Invalid hex bytes: {cause.message}"
  | .notTrace => "Invalid trace format: Trace must be a JSON object or array"

namespace Quantity

/-- The 64-bit number that a text denotes: hex after `0x`, none of its digits meaning zero, and
    decimal without. -/
def ofText (text : String) : Except FormatError Nat :=
  match text.toList with
  | ['0', 'x'] => .ok 0
  | '0' :: 'x' :: digits => (Text.readNat 16 (max64 + 1) digits).mapError .hexQuantity
  | digits => (Text.readU64 digits).mapError .decimalQuantity

/-- The 64-bit number that a JSON number or text denotes. -/
def ofJson (json : Json) : Except FormatError Nat :=
  match json with
  | .str s => ofText s
  | json =>
    match json.nat? with
    | some n => .ok n
    | none => .error (.notQuantity json)

/-- The number that hex digits denote, read from the last to the first: `place` digits have been
    read and denote `value`. Underscores are no digits, and only zeros may stand before 64
    others. -/
def readWordFrom : (place value : Nat) → (reversed : Bytes) → Except WordError Word
  | _, value, [] => .ok (BitVec.ofNat 256 value)
  | place, value, b :: rest =>
    if b = 0x5F then readWordFrom place value rest
    else
      match Hex.value? (Char.ofNat b.toNat) with
      | none => .error (.invalidDigit b)
      | some d =>
        if 64 ≤ place ∧ d ≠ 0 then .error .tooLarge
        else readWordFrom (place + 1) (value + d <<< (4 * place)) rest

/-- The word that hex digits with or without `0x` denote. -/
def word (text : String) : Except FormatError Word :=
  let digits := (Hex.stripMark text.toList).flatMap String.utf8EncodeChar
  (readWordFrom 0 0 digits.reverse).mapError (.word text)

/-- The byte string that hex digits with or without `0x` denote. -/
def bytes (text : String) : Except FormatError Bytes :=
  (Hex.read (Hex.stripMark text.toList)).mapError .hexBytes

end Quantity

end TxTrace

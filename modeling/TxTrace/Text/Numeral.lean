import TxTrace.Size

/-!
Positional numerals of bounded range: an optional sign, then at least one digit. `+` is accepted
before any numeral, `-` only where negative numbers are in range.
-/

namespace TxTrace.Text

/-- Why a text is not a numeral of the wanted range. -/
inductive NumeralError where
  | empty
  | invalidDigit
  | tooLarge
  | tooSmall
deriving DecidableEq, Repr

def NumeralError.message : NumeralError → String
  | .empty => "cannot parse integer from empty string"
  | .invalidDigit => "invalid digit found in string"
  | .tooLarge => "number too large to fit in target type"
  | .tooSmall => "number too small to fit in target type"

/-- The value of a digit to a base of at most 36, letters of either case counting from ten. -/
def digit? (base : Nat) (c : Char) : Option Nat :=
  let n := c.toNat
  let value :=
    if 48 ≤ n ∧ n ≤ 57 then n - 48
    else if 97 ≤ n ∧ n ≤ 122 then n - 87
    else if 65 ≤ n ∧ n ≤ 90 then n - 55
    else base
  if value < base then some value else none

/-- The number that `acc` followed by the digits `cs` denotes. Reading stops at the first character
    that is no digit, or as soon as the number so far reaches `bound`, whichever comes first. -/
def readDigits (base bound : Nat) : (acc : Nat) → (cs : List Char) → Except NumeralError Nat
  | acc, [] => .ok acc
  | acc, c :: cs =>
    match digit? base c with
    | none => .error .invalidDigit
    | some d =>
      if acc * base + d < bound then readDigits base bound (acc * base + d) cs
      else .error .tooLarge

/-- The natural number below `bound` that a numeral denotes. -/
def readNat (base bound : Nat) : (cs : List Char) → Except NumeralError Nat
  | [] => .error .empty
  | ['+'] => .error .invalidDigit
  | '+' :: cs => readDigits base bound 0 cs
  | cs => readDigits base bound 0 cs

/-- The integer from `-bound` up to below `bound` that a decimal numeral denotes. -/
def readInt (bound : Nat) : (cs : List Char) → Except NumeralError Int
  | ['-'] => .error .invalidDigit
  | '-' :: cs =>
    match readDigits 10 (bound + 1) 0 cs with
    | .ok n => .ok (-n)
    | .error .tooLarge => .error .tooSmall
    | .error e => .error e
  | cs => (readNat 10 bound cs).map Int.ofNat

/-- A decimal numeral of 64 bits. -/
def readU64 (cs : List Char) : Except NumeralError Nat := readNat 10 (max64 + 1) cs

/-- A signed decimal numeral of 64 bits. -/
def readI64 (cs : List Char) : Except NumeralError Int := readInt (max64 / 2 + 1) cs

end TxTrace.Text

import TxTrace.Word
import TxTrace.Text.Quoted

/-!
Hexadecimal text of numbers and byte strings. `digit` writes lower case, and readers take either
case.
-/

namespace TxTrace.Hex

/-- The lower-case hex digit of a number below 16. -/
def digit (n : Nat) : Char :=
  if n < 10 then Char.ofNat (48 + n) else Char.ofNat (87 + n)

/-- The value of a hex digit of either case. -/
def value? (c : Char) : Option Nat := Text.digit? 16 c

/-- The two digits of a byte. -/
def ofByte (b : UInt8) : List Char := [digit (b.toNat / 16), digit (b.toNat % 16)]

def digits (bs : Bytes) : List Char := bs.flatMap ofByte

/-- A byte string as `0x` and its digits. -/
def ofBytes (bs : Bytes) : String := String.ofList ('0' :: 'x' :: digits bs)

/-- A number in hex, without leading zeros. -/
def ofNat (n : Nat) : String := String.ofList (Nat.toDigits 16 n)

/-- A number in hex, with leading zeros up to `width` digits. -/
def padded (width n : Nat) : String := String.ofList ((Nat.toDigits 16 n).leftpad width '0')

/-- A word as a quantity: `0x` and its digits without leading zeros. -/
def ofWord (w : Word) : String := "0x" ++ ofNat w.toNat

def ofHash (w : Word) : String := ofBytes w.toBytes

def ofAddress (a : Address) : String := ofBytes a.toBytes

def ofSelector (s : Selector) : String := ofBytes s.toBytes

/-- Why a text is not a byte string in hex. Positions count the bytes of the text. -/
inductive Error where
  | oddLength
  | invalidCharacter (byte : UInt8) (position : Nat)
deriving DecidableEq, Repr

/-- The wording of a hex error. A byte is shown as the character of its own number. -/
def Error.message : Error → String
  | .oddLength => "Odd number of digits"
  | .invalidCharacter byte position =>
    s!"Invalid character {Text.quoteChar (Char.ofNat byte.toNat)} at position {position}"

/-- The value of the digit `b`, found at `position`. -/
def readDigit (b : UInt8) (position : Nat) : Except Error Nat :=
  match value? (Char.ofNat b.toNat) with
  | some v => .ok v
  | none => .error (.invalidCharacter b position)

/-- The bytes `read`, last one first, and after them those that pairs of digits denote, the first
    digit standing at `position`. -/
def readPairs : (read : Bytes) → (position : Nat) → (digits : Bytes) → Except Error Bytes
  | read, position, high :: low :: rest => do
    let h ← readDigit high position
    let l ← readDigit low (position + 1)
    readPairs (UInt8.ofNat (h * 16 + l) :: read) (position + 2) rest
  | _, _, [_] => .error .oddLength
  | read, _, [] => .ok read.reverse

/-- The byte string that a text of hex digits denotes. -/
def read (cs : List Char) : Except Error Bytes :=
  let digits := cs.flatMap String.utf8EncodeChar
  if digits.length % 2 = 0 then readPairs [] 0 digits else .error .oddLength

/-- A text without a leading `0x`, if it has one. -/
def stripMark : List Char → List Char
  | '0' :: 'x' :: cs => cs
  | cs => cs

/-- A text without a leading `0x` or `0X`, if it has one. -/
def stripAnyMark : List Char → List Char
  | '0' :: 'X' :: cs => cs
  | cs => stripMark cs

/-- The byte string that hex digits denote, with or without a mark in front. -/
def bytes? (s : String) : Option Bytes := (read (stripAnyMark s.toList)).toOption

/-- The address that 40 hex digits denote, with or without a mark in front. -/
def address? (s : String) : Option Address := bytes? s >>= Address.ofBytes?

/-- The word that 64 hex digits denote, with or without a mark in front. -/
def hash? (s : String) : Option Word := do
  let bs ← bytes? s
  if bs.length = 32 then some (Word.ofBytes bs) else none

end TxTrace.Hex

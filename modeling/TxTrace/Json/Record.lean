import TxTrace.Hex
import TxTrace.Json.Basic

/-!
Records in JSON: an object with the fields of the record, or an array with their values in the
order of their declaration. Fields that the record does not have are ignored, and a field that it
has may be written only once.
-/

namespace TxTrace.Json

/-- A record read from JSON: the value of each field that was written. -/
structure Record where
  fields : List (String × Json)

namespace Record

/-- The record in a JSON value whose fields are `names`. An array must have values at least for the
    first `least` fields. -/
def ofJson? (names : List String) (least : Nat) : Json → Option Record
  | .obj fields =>
    if names.all fun name => fields.countP (·.1 == name) ≤ 1 then some ⟨fields⟩ else none
  | .arr items =>
    if least ≤ items.length ∧ items.length ≤ names.length then some ⟨names.zip items⟩ else none
  | _ => none

/-- The value of a field, if it was written. -/
def get? (r : Record) (name : String) : Option Json := (r.fields.find? (·.1 == name)).map (·.2)

/-- The value of a field that must be there. -/
def required {α : Type} (r : Record) (name : String) (read : Json → Option α) : Option α :=
  r.get? name >>= read

/-- The value of a field, or `fallback` when it was not written. -/
def withDefault {α : Type} (r : Record) (name : String) (fallback : α) (read : Json → Option α) :
    Option α :=
  match r.get? name with
  | some json => read json
  | none => some fallback

/-- The value of a field that may be missing or null. -/
def nullable {α : Type} (r : Record) (name : String) (read : Json → Option α) :
    Option (Option α) :=
  match r.get? name with
  | none | some .null => some none
  | some json => (read json).map some

end Record

/-- The items of an array, each of which `read` accepts. -/
def list? {α : Type} (read : Json → Option α) : Json → Option (List α)
  | arr items => items.mapM read
  | _ => none

/-- A double, also one written as an integer. -/
def float? : Json → Option Float
  | float x => some x
  | int n =>
    let magnitude := (UInt64.ofNat n.natAbs).toFloat
    some (if n < 0 then -magnitude else magnitude)
  | _ => none

/-- A byte as a number. -/
def byte? (json : Json) : Option UInt8 := do
  let n ← json.nat?
  if n < 256 then some (UInt8.ofNat n) else none

/-- A byte string in hex, or as an array of numbers. -/
def bytes? : Json → Option Bytes
  | str s => Hex.bytes? s
  | json => list? byte? json

/-- A byte string of `n` bytes in hex, or as an array of numbers. One more item after the numbers is
    passed over when it is no byte. -/
def exactBytes? (n : Nat) : Json → Option Bytes
  | arr items => do
    let bs ← (items.take n).mapM byte?
    match items.drop n with
    | [] => if bs.length = n then some bs else none
    | [extra] => if (byte? extra).isNone then some bs else none
    | _ => none
  | json => do
    let bs ← bytes? json
    if bs.length = n then some bs else none

/-- An address in hex, or as an array of numbers. -/
def address? (json : Json) : Option Address := exactBytes? 20 json >>= Address.ofBytes?

/-- A hash in hex, or as an array of numbers. -/
def hash? (json : Json) : Option Word := (exactBytes? 32 json).map Word.ofBytes

/-- The base of a number's text, and its digits. -/
def baseOf : List Char → Nat × List Char
  | '0' :: mark :: digits =>
    if mark = 'x' ∨ mark = 'X' then (16, digits)
    else if mark = 'o' ∨ mark = 'O' then (8, digits)
    else if mark = 'b' ∨ mark = 'B' then (2, digits)
    else (10, '0' :: mark :: digits)
  | digits => (10, digits)

/-- The 256-bit number that a JSON number or a text denotes: decimal, or after `0x`, `0o` or `0b` to
    that base. Underscores are no digits, and no digits at all mean zero. -/
def word? : Json → Option Word
  | str s => do
    let (base, digits) := baseOf s.toList
    let values ← (digits.filter (· != '_')).mapM (Text.digit? base)
    let n := values.foldl (fun n d => n * base + d) 0
    Word.ofNat? n
  | json => json.nat? >>= Word.ofNat?

end TxTrace.Json

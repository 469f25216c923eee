import TxTrace.Bytes
import TxTrace.Text.Numeral
import TxTrace.Text.Split
import TxTrace.Trace.Opcode

/-!
Source maps: which range of the source code each instruction of a contract comes from. A map is
written as one item for each instruction, `start:length:file:jump`, an empty or missing field being
that of the item before.
-/

namespace TxTrace.Source

/-- Whether an instruction jumps into a function or out of one. -/
inductive Jump where
  | into
  | out
  | regular
deriving DecidableEq, Repr, Inhabited

/-- The jump that a marker stands for. -/
def Jump.ofMarker : List Char → Jump
  | ['i'] => into
  | ['o'] => out
  | _ => regular

/-- A run of code, from the position `first` up to below `stop`, with the source range it comes
    from. -/
structure Range where
  first : Nat
  stop : Nat
  /-- The position of the file in the list of sources. -/
  file : Nat
  offset : Nat
  length : Nat
  jump : Jump
deriving DecidableEq, Repr, Inhabited

/-- A range of the source code. -/
structure Location where
  file : String
  offset : Nat
  length : Nat
  /-- Line and column, counted from 1, when the text of the file is known. -/
  place : Option (Nat × Nat)
deriving DecidableEq, Repr, Inhabited

/-- A field of a source map that is no number. -/
structure MapError where
  /-- The position of the item. -/
  index : Nat
  text : String
  cause : Text.NumeralError
deriving DecidableEq, Repr

/-- The fields of an item, inherited ones included. -/
structure Item where
  start : Int
  length : Int
  file : Int
  jump : Jump
deriving DecidableEq, Repr

namespace Item

/-- What the first item inherits: no range. -/
def initial : Item := ⟨-1, -1, -1, .regular⟩

/-- A numeric field of the item at `index`, `previous` if it is empty or missing. -/
def number (index : Nat) (previous : Int) : (field : Option (List Char)) → Except MapError Int
  | none | some [] => .ok previous
  | some text => (Text.readI64 text).mapError fun cause => ⟨index, String.ofList text, cause⟩

/-- The jump of an item, `previous` if its marker is empty or missing. -/
def jumpOf (previous : Jump) : (marker : Option (List Char)) → Jump
  | none | some [] => previous
  | some marker => .ofMarker marker

/-- The item written `text` at `index`, after the item `previous`. -/
def read (index : Nat) (previous : Item) (text : List Char) : Except MapError Item := do
  let fields := Text.splitOn ':' text
  return {
    start := ← number index previous.start fields[0]?
    length := ← number index previous.length fields[1]?
    file := ← number index previous.file fields[2]?
    jump := jumpOf previous.jump fields[3]? }

/-- The items written `texts`, the first of them at `index` and after the item `previous`. -/
def readAll (index : Nat) (previous : Item) : (texts : List (List Char)) →
    Except MapError (List Item)
  | [] => .ok []
  | text :: texts => do
    let item ← read index previous text
    let items ← readAll (index + 1) item texts
    return item :: items

/-- The range of the instruction of `size` bytes at `pc`, when its item has one. -/
def range? (item : Item) (pc size : Nat) : Option Range :=
  if 0 ≤ item.start ∧ 0 ≤ item.length ∧ 0 ≤ item.file then
    some ⟨pc, pc + size, item.file.toNat, item.start.toNat, item.length.toNat, item.jump⟩
  else none

end Item

/-- Position and size of the instructions in `code`, which stands at `pc` and whose first `skip`
    bytes are data of the instruction before. -/
def instructionsFrom (pc skip : Nat) : (code : Bytes) → List (Nat × Nat)
  | [] => []
  | b :: code =>
    match skip with
    | skip + 1 => instructionsFrom (pc + 1) skip code
    | 0 => (pc, 1 + pushSize b) :: instructionsFrom (pc + 1) (pushSize b) code

/-- Position and size of the instructions in a contract's code. The data of the last one may be cut
    short. -/
def instructions (code : Bytes) : List (Nat × Nat) := instructionsFrom 0 0 code

namespace Range

/-- Whether `b` goes on where `a` ends and comes from the same source range. -/
def continues (a b : Range) : Bool :=
  a.stop == b.first && a.file == b.file && a.offset == b.offset && a.length == b.length &&
    a.jump == b.jump

/-- The ranges with neighbours joined that continue each other, `current` being the one before. -/
def joinFrom (current : Range) : List Range → List Range
  | [] => [current]
  | r :: rs =>
    if current.continues r then joinFrom { current with stop := r.stop } rs
    else current :: joinFrom r rs

/-- The ranges with neighbours joined that continue each other. -/
def join : List Range → List Range
  | [] => []
  | r :: rs => joinFrom r rs

end Range

/-- The source map of a contract: its ranges in the order of the code, and the sources by
    position. -/
structure Map where
  ranges : List Range
  files : List String
deriving DecidableEq, Repr, Inhabited

namespace Map

/-- The map written `text` for `code`. Items beyond the last instruction are ignored. -/
def ofText (text : String) (code : Bytes) (files : List String) : Except MapError Map := do
  let places := instructions code
  let items ← Item.readAll 0 .initial ((Text.splitOn ';' text.toList).take places.length)
  let ranges := (places.zip items).filterMap fun ((pc, size), item) => item.range? pc size
  return ⟨Range.join ranges, files⟩

/-- The range that holds the position `pc`: the last one that begins at or before it, if it does not
    end before. -/
def rangeAt? (map : Map) (pc : Nat) : Option Range :=
  match (map.ranges.takeWhile (·.first ≤ pc)).getLast? with
  | some r => if pc < r.stop then some r else none
  | none => none

/-- The source range of the position `pc`. A file beyond the list of sources is named by its
    position. -/
def resolve? (map : Map) (pc : Nat) : Option Location :=
  (map.rangeAt? pc).map fun r =>
    ⟨map.files.getD r.file s!"<source {r.file}>", r.offset, r.length, none⟩

end Map

end TxTrace.Source

import TxTrace.Json.Basic

/-!
JSON as it stands in a text, before it is known which parts of it are wanted. A part can be well
formed and still have no value: a number may be too large, a string may hold half a pair of
surrogates, and arrays and objects may be nested too deep. `Written.select` takes the value of the
parts that a `Shape` names and passes over all others.
-/

namespace TxTrace.Json

/-- A piece of JSON as it is written. The key of a field is missing when it holds half a pair. -/
inductive Written where
  /-- A scalar that has a value. -/
  | value (scalar : Json)
  /-- A number beyond all doubles. -/
  | tooLarge
  /-- A string in which a code from the range of surrogate pairs has no partner. -/
  | halfPair
  | arr (items : List Written)
  | obj (fields : List (Option String × Written))
deriving Repr, Inhabited

/-- Which parts of a text are wanted. -/
inductive Shape where
  /-- All of it. -/
  | whole
  /-- A value that is no array and no object. -/
  | scalar
  /-- An array, of each item what `item` says. -/
  | items (item : Shape)
  /-- An object with any keys, of each value what `value` says. -/
  | entries (value : Shape)
  /-- The fields of a record, by their names or, in an array, by their order. -/
  | record (fields : List (String × Shape))

namespace Shape

/-- A record whose fields are wanted whole, apart from those that `inner` tells more of. -/
def ofFields (names : List String) (inner : List (String × Shape)) : Shape :=
  .record (names.map fun name => (name, (inner.lookup name).getD .whole))

/-- A byte string: a text, or an array of numbers. -/
def bytes : Shape := .items .scalar

/-- What is wanted of the item at a position of an array. -/
def item (shape : Shape) (position : Nat) : Shape :=
  match shape with
  | .items item => item
  | .record fields => ((fields[position]?).map (·.2)).getD .whole
  | _ => .whole

/-- What is wanted of the value of an object's field, if anything is. -/
def field? (shape : Shape) (key : String) : Option Shape :=
  match shape with
  | .entries value => some value
  | .record fields => fields.lookup key
  | _ => some .whole

/-- Whether an array or object can be what is wanted. -/
def nests : Shape → Bool
  | .scalar => false
  | _ => true

end Shape

/-- How many arrays and objects may be open at once around what is wanted. -/
def maxOpen : Nat := 127

namespace Written

mutual

/-- The value of what `shape` names, inside `opened` arrays and objects. A number that is too large
    has the value null where only scalars are wanted. -/
def select (opened : Nat) (shape : Shape) : Written → Option Json
  | value scalar => some scalar
  | tooLarge => if shape.nests then none else some .null
  | halfPair => none
  | arr items =>
    if shape.nests ∧ opened < maxOpen then
      (selectItems (opened + 1) shape 0 items).map .arr
    else none
  | obj fields =>
    if shape.nests ∧ opened < maxOpen then
      (selectFields (opened + 1) shape fields).map .obj
    else none

/-- The values of the items of an array from a position on. -/
def selectItems (opened : Nat) (shape : Shape) (position : Nat) :
    List Written → Option (List Json)
  | [] => some []
  | item :: items => do
    let value ← item.select opened (shape.item position)
    let values ← selectItems opened shape (position + 1) items
    return value :: values

/-- The fields of an object that are wanted. Every key must be a text. -/
def selectFields (opened : Nat) (shape : Shape) :
    List (Option String × Written) → Option (List (String × Json))
  | [] => some []
  | (key, written) :: fields => do
    let key ← key
    match shape.field? key with
    | none => selectFields opened shape fields
    | some wanted =>
      let value ← written.select opened wanted
      let values ← selectFields opened shape fields
      return (key, value) :: values

end

end Written

end TxTrace.Json

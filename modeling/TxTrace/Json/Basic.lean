/-!
JSON values. The fields of an object stand in the order in which they were written, and
`Json.normal` gives the form in which that order, and a field written twice, make no difference.
-/

namespace TxTrace

/-- A JSON value. Integers are those of 64 bits, signed or unsigned; all other numbers are
    doubles. -/
inductive Json where
  | null
  | bool (b : Bool)
  | int (n : Int)
  | float (x : Float)
  | str (s : String)
  | arr (items : List Json)
  | obj (fields : List (String × Json))
deriving BEq, Repr, Inhabited

namespace Json

/-- Fields sorted by key, the last of several fields with one key standing for all of them. -/
def sortFields {α : Type} (fields : List (String × α)) : List (String × α) :=
  keepLast (fields.mergeSort fun a b => !decide (b.1 < a.1))
where
  /-- Of neighbours with one key the last. -/
  keepLast : List (String × α) → List (String × α)
    | a :: b :: rest => if a.1 = b.1 then keepLast (b :: rest) else a :: keepLast (b :: rest)
    | fields => fields

/-- An object, its fields sorted by key. -/
def object (fields : List (String × Json)) : Json := .obj (sortFields fields)

mutual

/-- The value with the fields of all objects in it sorted by key. -/
def normal : Json → Json
  | arr items => arr (normalItems items)
  | obj fields => object (normalFields fields)
  | value => value

def normalItems : List Json → List Json
  | [] => []
  | item :: items => item.normal :: normalItems items

def normalFields : List (String × Json) → List (String × Json)
  | [] => []
  | (key, value) :: fields => (key, value.normal) :: normalFields fields

end

mutual

/-- How many arrays and objects are nested in a value, itself counted. -/
def depth : Json → Nat
  | arr items => depthItems items + 1
  | obj fields => depthFields fields + 1
  | _ => 1

def depthItems : List Json → Nat
  | [] => 0
  | item :: items => max item.depth (depthItems items)

def depthFields : List (String × Json) → Nat
  | [] => 0
  | (_, value) :: fields => max value.depth (depthFields fields)

end

/-- The value of the field `key` of an object. -/
def get? (json : Json) (key : String) : Option Json :=
  match json with
  | obj fields => (fields.find? (·.1 == key)).map (·.2)
  | _ => none

/-- The value of a field is a smaller value than the object. -/
theorem sizeOf_get?_lt {json value : Json} {key : String} (h : json.get? key = some value) :
    sizeOf value < sizeOf json := by
  unfold get? at h
  split at h
  · next fields =>
    obtain ⟨⟨name, found⟩, hfind, rfl⟩ := Option.map_eq_some_iff.1 h
    have hlt := List.sizeOf_lt_of_mem (List.mem_of_find?_eq_some hfind)
    simp only [Prod.mk.sizeOf_spec, obj.sizeOf_spec] at hlt ⊢
    omega
  · simp at h

/-- The text of a string. -/
def str? : Json → Option String
  | str s => some s
  | _ => none

/-- The truth value of a boolean. -/
def bool? : Json → Option Bool
  | bool b => some b
  | _ => none

/-- The items of an array. -/
def arr? : Json → Option (List Json)
  | arr items => some items
  | _ => none

/-- The fields of an object. -/
def fields? : Json → Option (List (String × Json))
  | obj fields => some fields
  | _ => none

/-- The natural number that an unsigned integer is. -/
def nat? : Json → Option Nat
  | int n => if 0 ≤ n then some n.toNat else none
  | _ => none

/-- A string, or nothing. -/
def ofString? : Option String → Json
  | some s => str s
  | none => null

/-- A number, or nothing. -/
def ofNat? : Option Nat → Json
  | some n => int n
  | none => null

end Json

end TxTrace

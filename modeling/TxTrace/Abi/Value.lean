import TxTrace.Abi.Ty
import TxTrace.Address
import TxTrace.Json.Basic

/-!
Values of the contract ABI, their JSON form (`Value.toJson`) and their text (`Value.display`).
-/

namespace TxTrace.Abi

/-- A value of the contract ABI. Integers are words that carry the width they were declared with,
    `int` words being signed. `fixedBytes` also stands for function references. -/
inductive Value where
  | address (a : Address)
  | bool (b : Bool)
  | uint (word : Word) (bits : Nat)
  | int (word : Word) (bits : Nat)
  | fixedBytes (bs : Bytes)
  | bytes (bs : Bytes)
  | string (s : String)
  | array (items : List Value)
  | fixedArray (items : List Value)
  | tuple (fields : List (Member Value))
deriving BEq, Repr, Inhabited

namespace Value

mutual

/-- The JSON form of a value: numbers as decimal text, bytes in hex, and a tuple whose members all
    have names as an object. -/
def toJson : Value → Json
  | address a => .str a.checksum
  | bool b => .bool b
  | uint word _ => .str (toString word.toNat)
  | int word _ => .str (toString word.toInt)
  | fixedBytes bs | bytes bs => .str (Hex.ofBytes bs)
  | string s => .str s
  | array items | fixedArray items => .arr (toJsonItems items)
  | tuple fields =>
    if !fields.isEmpty && fields.all (·.name.isSome) then .object (toJsonFields fields)
    else .arr ((toJsonFields fields).map (·.2))

def toJsonItems : List Value → List Json
  | [] => []
  | v :: vs => v.toJson :: toJsonItems vs

def toJsonFields : List (Member Value) → List (String × Json)
  | [] => []
  | m :: ms => (m.name.getD "", m.val.toJson) :: toJsonFields ms

end

mutual

def display : Value → String
  | address a => a.checksum
  | bool b => if b then "true" else "false"
  | uint word _ => toString word.toNat
  | int word _ => toString word.toInt
  | fixedBytes bs | bytes bs => Hex.ofBytes bs
  | string s => Text.quote s
  | array items | fixedArray items => "[" ++ ", ".intercalate (displayItems items) ++ "]"
  | tuple fields => "(" ++ ", ".intercalate (displayFields fields) ++ ")"

def displayItems : List Value → List String
  | [] => []
  | v :: vs => v.display :: displayItems vs

def displayFields : List (Member Value) → List String
  | [] => []
  | m :: ms =>
    (match m.name with
      | some name => name ++ ": " ++ m.val.display
      | none => m.val.display) :: displayFields ms

end

end Value

end TxTrace.Abi

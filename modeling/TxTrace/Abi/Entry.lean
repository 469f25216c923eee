import TxTrace.Abi.Decode
import TxTrace.Abi.Ty.Parser

/-!
Entries of a contract's interface, with the signature that names each one and the hash it is found
by. A parameter is declared by the text of its type; where that is `tuple` with array dimensions,
the members of the tuple are declared beside it. `Declaration.toTy` reads a declaration and
`Declaration.ofTy` writes one.
-/

namespace TxTrace.Abi

/-- A parameter as it is declared: its type as text, with the members of a tuple in `components`. -/
structure Declaration where
  name : String
  type : String
  components : List Declaration
deriving BEq, Repr, Inhabited

namespace Declaration

/-- What follows `tuple` in the text of a type. -/
def tupleSuffix? (type : String) : Option String :=
  match type.toList with
  | 't' :: 'u' :: 'p' :: 'l' :: 'e' :: suffix => some (String.ofList suffix)
  | _ => none

mutual

/-- The text of the parameter in a signature: its members in parentheses, or its type as written. -/
def signature : Declaration → String
  | ⟨_, type, components⟩ =>
    if components.isEmpty then type
    else "(" ++ ",".intercalate (signatures components) ++ ")" ++ (tupleSuffix? type).getD ""

def signatures : List Declaration → List String
  | [] => []
  | d :: ds => d.signature :: signatures ds

end

mutual

/-- The type that a declaration denotes. -/
def toTy : Declaration → Except TypeError Ty
  | ⟨_, type, components⟩ =>
    match tupleSuffix? type with
    | none => Ty.parse type
    | some suffix =>
      if components.isEmpty then .error (.missingComponents type)
      else do
        let members ← toMembers components
        (Ty.tuple members).withArraySuffix suffix

/-- The members of a tuple that declarations denote. An empty name is none. -/
def toMembers : List Declaration → Except TypeError (List (Member Ty))
  | [] => .ok []
  | d :: ds => do
    let ty ← d.toTy
    let members ← toMembers ds
    return ⟨if d.name.isEmpty then none else some d.name, ty⟩ :: members

end

mutual

/-- The declaration of a parameter of type `ty`. -/
def ofTy (name : String) (ty : Ty) : Declaration :=
  match ty with
  | .tuple members => ⟨name, "tuple", ofMembers members⟩
  | .array elem => { ofTy name elem with type := (ofTy name elem).type ++ "[]" }
  | .fixedArray elem size =>
    { ofTy name elem with type := (ofTy name elem).type ++ "[" ++ toString size.toNat ++ "]" }
  | ty => ⟨name, ty.canonical, []⟩

def ofMembers : List (Member Ty) → List Declaration
  | [] => []
  | m :: ms => ofTy (m.name.getD "") m.val :: ofMembers ms

end

end Declaration

/-- A parameter of an entry. Only parameters of events are indexed. -/
structure Parameter where
  name : String
  type : Ty
  indexed : Bool := false
deriving BEq, Repr, Inhabited

def Parameter.declaration (p : Parameter) : Declaration := .ofTy p.name p.type

/-- What an entry describes. -/
inductive EntryKind where
  | function
  | event
  | error
  | constructor
deriving DecidableEq, Repr, Inhabited

/-- A function, event, error or constructor of a contract. -/
structure Entry where
  kind : EntryKind
  name : String
  inputs : List Parameter
  outputs : List Parameter
  /-- Whether an event leaves its hash out of its topics. -/
  anonymous : Bool
  /-- Name and parameter types, such as `transfer(address,uint256)`. -/
  signature : String
  /-- The first four bytes of the signature's hash, zero for a constructor. -/
  selector : Selector
  /-- The signature's hash for an event, zero for all others. -/
  topic : Word
deriving BEq, Repr, Inhabited

namespace Entry

/-- The signature of `name` with the parameter texts `parameters`. -/
def signatureOf (name : String) (parameters : List String) : String :=
  name ++ "(" ++ ",".intercalate parameters ++ ")"

/-- An entry that is found by the hash of its signature. -/
def hashed (kind : EntryKind) (name : String) (declared : List Declaration)
    (inputs outputs : List Parameter) (anonymous : Bool) : Entry :=
  let signature := signatureOf name (Declaration.signatures declared)
  let hash := Keccak.hash (Text.utf8 signature)
  { kind, name, inputs, outputs, anonymous, signature,
    selector := hash.extractLsb' 224 32
    topic := if kind = .event then hash else 0 }

def function (name : String) (inputs outputs : List Parameter) : Entry :=
  hashed .function name (inputs.map (·.declaration)) inputs outputs false

def event (name : String) (inputs : List Parameter) : Entry :=
  hashed .event name (inputs.map (·.declaration)) inputs [] false

def error (name : String) (inputs : List Parameter) : Entry :=
  hashed .error name (inputs.map (·.declaration)) inputs [] false

/-- The constructor with these parameters. Nothing finds it by hash. -/
def constructor (inputs : List Parameter) : Entry :=
  { kind := .constructor
    name := "constructor"
    inputs
    outputs := []
    anonymous := false
    signature := signatureOf "constructor" (inputs.map (·.type.canonical))
    selector := 0
    topic := 0 }

def inputTypes (e : Entry) : List Ty := e.inputs.map (·.type)

def outputTypes (e : Entry) : List Ty := e.outputs.map (·.type)

end Entry

/-- A decoded value with the name and type it was declared with. -/
structure Argument where
  name : String
  type : Ty
  value : Value
deriving BEq, Repr, Inhabited

namespace Argument

def toJson (a : Argument) : Json :=
  .object [
    ("name", .str a.name), ("type", .str a.type.canonical), ("value", a.value.toJson)]

/-- The text of an argument: its value, after its name if it has one. -/
def display (a : Argument) : String :=
  if a.name.isEmpty then a.value.display else a.name ++ ": " ++ a.value.display

end Argument

/-- The values of parameters in data that was encoded for them. -/
def decodeArguments (params : List Parameter) (data : Bytes) :
    Except DecodeError (List Argument) := do
  let values ← decode (params.map (·.type)) data
  return List.zipWith (fun p v => ⟨p.name, p.type, v⟩) params values

end TxTrace.Abi

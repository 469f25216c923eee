import TxTrace.Abi.Entry
import TxTrace.Json.Reader
import TxTrace.Json.Record

/-!
The interface of a contract, and its reading from JSON: an array of entries, told apart by their
`type`.
-/

namespace TxTrace.Abi

/-- The functions, events and errors of a contract, each sorted by name. -/
structure Interface where
  functions : List Entry
  events : List Entry
  errors : List Entry
  constructor : Option Entry
  hasFallback : Bool
  hasReceive : Bool
deriving BEq, Repr, Inhabited

/-- Why a JSON value is no interface. -/
inductive InterfaceError where
  | invalidJson
  | type (cause : TypeError)
deriving DecidableEq, Repr

def InterfaceError.message : InterfaceError → String
  | .invalidJson => "Invalid ABI JSON"
  | .type cause => cause.message

namespace Interface

def empty : Interface := ⟨[], [], [], none, false, false⟩

def functionBySelector (abi : Interface) (selector : Selector) : Option Entry :=
  abi.functions.find? (·.selector == selector)

def functionByName (abi : Interface) (name : String) : Option Entry :=
  abi.functions.find? (·.name == name)

/-- The first event that writes its hash `topic` into its logs. -/
def eventByTopic (abi : Interface) (topic : Word) : Option Entry :=
  abi.events.find? fun e => !e.anonymous && e.topic == topic

def errorBySelector (abi : Interface) (selector : Selector) : Option Entry :=
  abi.errors.find? (·.selector == selector)

end Interface

/-! ### The form of names and types -/

def isIdentStart (c : Char) : Bool := c.isAlpha || c == '_' || c == '$'

def isIdentRest (c : Char) : Bool := isIdentStart c || c.isDigit

/-- What follows the identifier at the front of a text. -/
def dropIdent? : List Char → Option (List Char)
  | c :: cs => if isIdentStart c then some (cs.dropWhile isIdentRest) else none
  | [] => none

/-- A name: an identifier, or nothing. -/
def isName (s : String) : Bool := s.isEmpty || dropIdent? s.toList == some []

/-- What follows the array dimensions at the front of a text. A size has digits only and is a
    positive number of 64 bits. -/
def dropDimensions? : (fuel : Nat) → List Char → Option (List Char)
  | fuel + 1, '[' :: cs =>
    let size := cs.takeWhile Char.isDigit
    match cs.dropWhile Char.isDigit with
    | ']' :: rest =>
      if size.isEmpty then dropDimensions? fuel rest
      else
        match Text.readU64 size with
        | .ok (_ + 1) => dropDimensions? fuel rest
        | _ => none
    | _ => none
  | _, cs => some cs

/-- How many lists of types may be open at once. -/
def maxOpenLists : Nat := 79

/-- A text without the blanks and tabs at its front. -/
def dropGap (cs : List Char) : List Char := cs.dropWhile fun c => c == ' ' || c == '\t'

/-- A text without `tuple` in front of a parenthesis. -/
def dropTupleMark : List Char → List Char
  | 't' :: 'u' :: 'p' :: 'l' :: 'e' :: '(' :: cs => '(' :: cs
  | cs => cs

mutual

/-- What follows the type at the front of a text, inside `opened` lists: an identifier, which may be
    qualified by another after a point, or a list of types in parentheses, and then array
    dimensions. -/
def dropType? : (fuel opened : Nat) → List Char → Option (List Char)
  | 0, _, _ => none
  | fuel + 1, opened, cs => do
    let rest ←
      match dropTupleMark cs with
      | '(' :: cs =>
        if maxOpenLists ≤ opened then none
        else
          match dropGap cs with
          | ')' :: rest => some rest
          | cs => dropTypes? fuel (opened + 1) cs
      | cs =>
        match dropIdent? cs with
        | some ('.' :: cs) => some ((dropIdent? cs).getD cs)
        | rest => rest
    dropDimensions? rest.length rest

/-- What follows a list of types from one of its types on. Blanks may stand after a comma and before
    the closing parenthesis, and so may a last comma. -/
def dropTypes? : (fuel opened : Nat) → List Char → Option (List Char)
  | 0, _, _ => none
  | fuel + 1, opened, cs => do
    match ← dropType? fuel opened cs with
    | ',' :: rest =>
      match dropGap rest with
      | ')' :: rest => some rest
      | cs => dropTypes? fuel opened cs
    | rest =>
      match dropGap rest with
      | ')' :: rest => some rest
      | _ => none

end

/-- Whether a text has the form of a type, known or not. -/
def isTypeText (s : String) : Bool := dropType? (2 * s.length + 2) 0 s.toList == some []

/-! ### Reading entries -/

/-- A name in JSON. -/
def name? (json : Json) : Option String := do
  let s ← json.str?
  if isName s then some s else none

/-- Whether a type has the form that goes with its components. -/
def Declaration.wellFormed (d : Declaration) : Bool :=
  if d.components.isEmpty then isTypeText d.type else (Declaration.tupleSuffix? d.type).isSome

def parameterFields : List String := ["name", "type", "indexed", "internalType", "components"]

/-- The declaration in a JSON record and whether it says that the parameter is indexed. Records nest
    at most `depth` deep. -/
def declaration? : (depth : Nat) → Json → Option (Declaration × Option Bool)
  | 0, _ => none
  | depth + 1, json => do
    let r ← Json.Record.ofJson? parameterFields 2 json
    let name ← r.withDefault "name" "" name?
    let type ← r.required "type" Json.str?
    let indexed ← r.nullable "indexed" Json.bool?
    let _ ← r.nullable "internalType" Json.str?
    let components ← r.withDefault "components" [] <| Json.list? fun c =>
      match declaration? depth c with
      | some (d, none) => some d
      | _ => none
    let d : Declaration := ⟨name, type, components⟩
    if d.wellFormed then some (d, indexed) else none

/-- A parameter that may not be indexed. -/
def plain? (json : Json) : Option Declaration :=
  match declaration? json.depth json with
  | some (d, none) => some d
  | _ => none

/-- A parameter of an event, and whether it is indexed. -/
def indexable? (json : Json) : Option (Declaration × Bool) :=
  (declaration? json.depth json).map fun (d, indexed) => (d, indexed.getD false)

/-- An entry as it is declared. -/
inductive Item where
  | function (name : String) (inputs outputs : List Declaration)
  | event (name : String) (inputs : List (Declaration × Bool)) (anonymous : Bool)
  | error (name : String) (inputs : List Declaration)
  | constructor (inputs : List Declaration)
  | fallback
  | receive

def mutabilities : List String := ["pure", "view", "nonpayable", "payable"]

/-- A word that says what a call may change: a text, or the only key of an object, with no value. -/
def mutability? (json : Json) : Option String := do
  let word ←
    match json with
    | .obj [(key, .null)] => some key
    | .obj [(key, .obj [])] => some key
    | json => json.str?
  if word ∈ mutabilities then some word else none

/-- Whether a record says in an accepted way what a call may change: by a word, or by two flags,
    which may not both be set without it. -/
def mutabilityOk (r : Json.Record) : Option Unit := do
  let word ← r.nullable "stateMutability" mutability?
  let payable ← r.nullable "payable" Json.bool?
  let constant ← r.nullable "constant" Json.bool?
  if word.isNone ∧ payable = some true ∧ constant = some true then none else some ()

/-- A record with the fields `names` that also says what a call may change. Only objects do. -/
def mutableRecord? (names : List String) (json : Json) : Option Json.Record := do
  let fields ← json.fields?
  let names := names ++ ["stateMutability", "payable", "constant"]
  let r ← Json.Record.ofJson? names 0 (.obj fields)
  mutabilityOk r
  return r

/-- The kind of an entry, and the JSON value of what else it says: an object with the field `type`,
    or an array that starts with the kind. -/
def tag? : Json → Option (String × Json)
  | .obj fields => do
    let r ← Json.Record.ofJson? ["type"] 0 (.obj fields)
    return (← r.required "type" Json.str?, .obj fields)
  | .arr (kind :: rest) => do return (← kind.str?, .arr rest)
  | _ => none

/-- The entry that a JSON value declares. -/
def item? (json : Json) : Option Item := do
  let (kind, json) ← tag? json
  match kind with
  | "function" =>
    let r ← mutableRecord? ["name", "inputs", "outputs"] json
    return .function (← r.required "name" name?) (← r.required "inputs" (Json.list? plain?))
      (← r.required "outputs" (Json.list? plain?))
  | "event" =>
    let r ← Json.Record.ofJson? ["name", "inputs", "anonymous"] 3 json
    return .event (← r.required "name" name?) (← r.required "inputs" (Json.list? indexable?))
      (← r.required "anonymous" Json.bool?)
  | "error" =>
    let r ← Json.Record.ofJson? ["name", "inputs"] 2 json
    return .error (← r.required "name" name?) (← r.required "inputs" (Json.list? plain?))
  | "constructor" =>
    let r ← mutableRecord? ["inputs"] json
    return .constructor (← r.required "inputs" (Json.list? plain?))
  | "fallback" =>
    let _ ← mutableRecord? [] json
    return .fallback
  | "receive" =>
    let _ ← mutableRecord? [] json
    return .receive
  | _ => none

/-! ### From items to entries -/

/-- The parameters that declarations denote. -/
def parameters (ds : List Declaration) : Except TypeError (List Parameter) :=
  ds.mapM fun d => do return ⟨d.name, ← d.toTy, false⟩

/-- The parameters of an event that declarations denote. -/
def eventParameters (ds : List (Declaration × Bool)) : Except TypeError (List Parameter) :=
  ds.mapM fun (d, indexed) => do return ⟨d.name, ← d.toTy, indexed⟩

/-- The items that `f` accepts, sorted by name. Those of one name keep their order. -/
def sortedItems {α : Type} (items : List Item) (f : Item → Option (String × α)) :
    List (String × α) :=
  (items.filterMap f).mergeSort fun a b => !decide (b.1 < a.1)

/-- The interface that items make up. Types are read in the order functions, events, errors,
    constructor, and the first that is none is the error. -/
def Interface.ofItems (items : List Item) : Except TypeError Interface := do
  let functions ← (sortedItems items fun
      | .function name inputs outputs => some (name, inputs, outputs)
      | _ => none).mapM fun (name, inputs, outputs) => do
    let ins ← parameters inputs
    let outs ← parameters outputs
    return Entry.hashed .function name inputs ins outs false
  let events ← (sortedItems items fun
      | .event name inputs anonymous => some (name, inputs, anonymous)
      | _ => none).mapM fun (name, inputs, anonymous) => do
    let ins ← eventParameters inputs
    return Entry.hashed .event name (inputs.map (·.1)) ins [] anonymous
  let errors ← (sortedItems items fun
      | .error name inputs => some (name, inputs)
      | _ => none).mapM fun (name, inputs) => do
    let ins ← parameters inputs
    return Entry.hashed .error name inputs ins [] false
  let constructor ← (items.findSome? fun
      | .constructor inputs => some inputs
      | _ => none).mapM fun inputs => do
    return Entry.constructor (← parameters inputs)
  return {
    functions, events, errors, constructor
    hasFallback := items.any fun | .fallback => true | _ => false
    hasReceive := items.any fun | .receive => true | _ => false }

/-- The interface in a JSON value: an array of entries with at most one constructor, one fallback
    and one receive entry. -/
def Interface.ofJson (json : Json) : Except InterfaceError Interface :=
  match Json.list? item? json with
  | none => .error .invalidJson
  | some items =>
    let constructors := items.countP fun | .constructor _ => true | _ => false
    let fallbacks := items.countP fun | .fallback => true | _ => false
    let receives := items.countP fun | .receive => true | _ => false
    if constructors ≤ 1 ∧ fallbacks ≤ 1 ∧ receives ≤ 1 then
      (Interface.ofItems items).mapError .type
    else .error .invalidJson

/-- The interface in a JSON text. -/
def Interface.ofText (text : String) : Except InterfaceError Interface :=
  match Json.read? text with
  | some json => ofJson json
  | none => .error .invalidJson

end TxTrace.Abi

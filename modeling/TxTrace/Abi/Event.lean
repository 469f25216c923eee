import TxTrace.Abi.Entry

/-!
Reading logs against the event that declares them. Parameters that are not indexed stand in the data
of a log, encoded together; each indexed one takes a topic, which holds its value if the type fits a
word and the hash of its value otherwise.
-/

namespace TxTrace.Abi

/-- A parameter of a decoded event. -/
structure EventArgument extends Argument where
  indexed : Bool
  /-- False where only a hash or raw data is known. -/
  decoded : Bool
deriving BEq, Repr, Inhabited

/-- A decoded event. -/
structure DecodedEvent where
  name : String
  /-- The contract that emitted it, if known. -/
  address : Option Address
  params : List EventArgument
deriving BEq, Repr, Inhabited

namespace DecodedEvent

/-- The JSON record of a parameter. -/
def paramToJson (p : EventArgument) : Json :=
  .object [
    ("name", .str p.name), ("type", .str p.type.canonical), ("value", p.value.toJson),
    ("indexed", .bool p.indexed), ("decoded", .bool p.decoded)]

def toJson (e : DecodedEvent) : Json :=
  .object [
    ("name", .str e.name), ("address", .ofString? (e.address.map Hex.ofAddress)),
    ("params", .arr (e.params.map paramToJson))]

/-- The text of an event, such as `Transfer(from: 0x…, value: 5)`. -/
def display (e : DecodedEvent) : String :=
  e.name ++ "(" ++ ", ".intercalate (e.params.map (·.toArgument.display)) ++ ")"

end DecodedEvent

/-- What the parameters `params` of an event hold: indexed ones in `topics`, of which `index` come
    before the first for them, and the others, in their order, as `body`. -/
def bindParameters (topics : List Word) (dataSize : Nat) :
    (params : List Parameter) → (index : Nat) → (body : List Value) →
      Except DecodeError (List EventArgument)
  | [], _, _ => .ok []
  | p :: ps, index, body =>
    if p.indexed then
      match topics[index]? with
      | none => .error (.missingTopic index)
      | some topic => do
        let value ←
          if p.type.isElementary then decodeValue p.type topic.toBytes 0
          else .ok (.fixedBytes topic.toBytes)
        let rest ← bindParameters topics dataSize ps (index + 1) body
        return ⟨⟨p.name, p.type, value⟩, true, p.type.isElementary⟩ :: rest
    else
      match body with
      | [] => .error (.insufficientData dataSize 32 dataSize)
      | value :: body => do
        let rest ← bindParameters topics dataSize ps index body
        return ⟨⟨p.name, p.type, value⟩, false, true⟩ :: rest

/-- The event that a log with these topics and this data is, as `event` declares it. -/
def decodeEvent (topics : List Word) (data : Bytes) (event : Entry) :
    Except DecodeError DecodedEvent := do
  let body ← decode ((event.inputs.filter fun p => !p.indexed).map (·.type)) data
  let params ← bindParameters topics data.length event.inputs (if event.anonymous then 0 else 1) body
  return ⟨event.name, none, params⟩

end TxTrace.Abi

import TxTrace.Hash.Keccak
import TxTrace.Json.Record

/-!
Transactions as they were submitted and, once mined, their receipts.
-/

namespace TxTrace

/-- An emitted log before decoding. -/
structure Log where
  address : Address
  topics : List Word
  data : Bytes
  /-- The step that emitted it, when it was taken from a trace. -/
  step : Option Nat
deriving DecidableEq, Repr

/-- What the chain recorded of a mined transaction. -/
structure Receipt where
  status : Bool
  gasUsed : Nat
  contractAddress : Option Address
  logs : List Log
deriving DecidableEq, Repr

/-- A transaction. Without a receiver it creates a contract. -/
structure Transaction where
  hash : Option Word
  sender : Address
  receiver : Option Address
  input : Bytes
  value : Word
  gasLimit : Nat
  gasPrice : Word
  nonce : Option Nat
  receipt : Option Receipt
deriving DecidableEq, Repr

namespace Rlp

/-- The bytes of a number without leading zeros. -/
def digits (n : Nat) : Bytes := (Bytes.ofNat 32 n).dropWhile (· == 0)

/-- The encoding of a short byte string. -/
def item (bs : Bytes) : Bytes :=
  match bs with
  | [b] => if b < 0x80 then [b] else [0x81, b]
  | bs => UInt8.ofNat (0x80 + bs.length) :: bs

/-- The encoding of a short list of encoded items. -/
def list (items : List Bytes) : Bytes :=
  UInt8.ofNat (0xC0 + items.flatten.length) :: items.flatten

end Rlp

namespace Address

/-- The address of the contract that `sender` creates with its transaction number `nonce`. -/
def created (sender : Address) (nonce : Nat) : Address :=
  (Keccak.hash (Rlp.list [Rlp.item sender.toBytes, Rlp.item (Rlp.digits nonce)])).toAddress

end Address

namespace Transaction

/-- Whether the transaction creates a contract. -/
def isCreation (tx : Transaction) : Bool := tx.receiver.isNone

/-- The address of the contract that the transaction creates: that of the receipt, else the one that
    follows from sender and nonce. -/
def createdAddress (tx : Transaction) : Option Address :=
  if tx.isCreation then
    (tx.receipt.bind (·.contractAddress)).or (tx.nonce.map tx.sender.created)
  else none

/-- The address whose code the transaction runs. -/
def target (tx : Transaction) : Option Address := tx.receiver.or tx.createdAddress

end Transaction

namespace Log

/-- The log in a JSON record. -/
def ofJson? (json : Json) : Option Log := do
  let r ← Json.Record.ofJson? ["address", "topics", "data", "step"] 3 json
  return {
    address := ← r.required "address" Json.address?
    topics := ← r.required "topics" (Json.list? Json.hash?)
    data := ← r.required "data" Json.bytes?
    step := ← r.nullable "step" Json.nat? }

def toJson (log : Log) : Json :=
  .object [
    ("address", .str (Hex.ofAddress log.address)),
    ("topics", .arr (log.topics.map fun t => .str (Hex.ofHash t))),
    ("data", .str (Hex.ofBytes log.data)),
    ("step", .ofNat? log.step)]

end Log

namespace Receipt

/-- The receipt in a JSON record. -/
def ofJson? (json : Json) : Option Receipt := do
  let r ← Json.Record.ofJson? ["status", "gas_used", "contract_address", "logs"] 1 json
  return {
    status := ← r.required "status" Json.bool?
    gasUsed := ← r.withDefault "gas_used" 0 Json.nat?
    contractAddress := ← r.nullable "contract_address" Json.address?
    logs := ← r.withDefault "logs" [] (Json.list? Log.ofJson?) }

def toJson (receipt : Receipt) : Json :=
  .object [
    ("status", .bool receipt.status),
    ("gas_used", .int receipt.gasUsed),
    ("contract_address", .ofString? (receipt.contractAddress.map Hex.ofAddress)),
    ("logs", .arr (receipt.logs.map Log.toJson))]

end Receipt

namespace Transaction

/-- The transaction in a JSON record. -/
def ofJson? (json : Json) : Option Transaction := do
  let r ← Json.Record.ofJson? ["hash", "sender", "receiver", "input", "value", "gas_limit",
    "gas_price", "nonce", "receipt"] 2 json
  return {
    hash := ← r.nullable "hash" Json.hash?
    sender := ← r.required "sender" Json.address?
    receiver := ← r.nullable "receiver" Json.address?
    input := ← r.withDefault "input" [] Json.bytes?
    value := ← r.withDefault "value" 0 Json.word?
    gasLimit := ← r.withDefault "gas_limit" 0 Json.nat?
    gasPrice := ← r.withDefault "gas_price" 0 Json.word?
    nonce := ← r.nullable "nonce" Json.nat?
    receipt := ← r.nullable "receipt" Receipt.ofJson? }

def toJson (tx : Transaction) : Json :=
  .object [
    ("hash", .ofString? (tx.hash.map Hex.ofHash)),
    ("sender", .str (Hex.ofAddress tx.sender)),
    ("receiver", .ofString? (tx.receiver.map Hex.ofAddress)),
    ("input", .str (Hex.ofBytes tx.input)),
    ("value", .str (Hex.ofWord tx.value)),
    ("gas_limit", .int tx.gasLimit),
    ("gas_price", .str (Hex.ofWord tx.gasPrice)),
    ("nonce", .ofNat? tx.nonce),
    ("receipt", (tx.receipt.map Receipt.toJson).getD .null)]

end Transaction

end TxTrace

import TxTrace.Json.Reader
import TxTrace.Quantity
import TxTrace.Transaction

/-!
What is sent to a node and what it answers: calls of its methods with their responses, and the
transactions and receipts in them.
-/

namespace TxTrace.Node

/-- A call of a method. -/
structure Request where
  method : String
  params : Json
  id : Nat

def Request.toJson (r : Request) : Json :=
  .obj [("jsonrpc", .str "2.0"), ("method", .str r.method), ("params", r.params), ("id", .int r.id)]

/-- The answer to a request: none, or a status and a text. -/
inductive Reply where
  | failed
  | received (status : Nat) (body : String)
deriving DecidableEq, Repr

/-- The phrase that goes with a status. -/
def statusPhrase : Nat → String
  | 100 => "Continue"
  | 101 => "Switching Protocols"
  | 102 => "Processing"
  | 103 => "Early Hints"
  | 200 => "OK"
  | 201 => "Created"
  | 202 => "Accepted"
  | 203 => "Non Authoritative Information"
  | 204 => "No Content"
  | 205 => "Reset Content"
  | 206 => "Partial Content"
  | 207 => "Multi-Status"
  | 208 => "Already Reported"
  | 226 => "IM Used"
  | 300 => "Multiple Choices"
  | 301 => "Moved Permanently"
  | 302 => "Found"
  | 303 => "See Other"
  | 304 => "Not Modified"
  | 305 => "Use Proxy"
  | 307 => "Temporary Redirect"
  | 308 => "Permanent Redirect"
  | 400 => "Bad Request"
  | 401 => "Unauthorized"
  | 402 => "Payment Required"
  | 403 => "Forbidden"
  | 404 => "Not Found"
  | 405 => "Method Not Allowed"
  | 406 => "Not Acceptable"
  | 407 => "Proxy Authentication Required"
  | 408 => "Request Timeout"
  | 409 => "Conflict"
  | 410 => "Gone"
  | 411 => "Length Required"
  | 412 => "Precondition Failed"
  | 413 => "Payload Too Large"
  | 414 => "URI Too Long"
  | 415 => "Unsupported Media Type"
  | 416 => "Range Not Satisfiable"
  | 417 => "Expectation Failed"
  | 418 => "I'm a teapot"
  | 421 => "Misdirected Request"
  | 422 => "Unprocessable Entity"
  | 423 => "Locked"
  | 424 => "Failed Dependency"
  | 425 => "Too Early"
  | 426 => "Upgrade Required"
  | 428 => "Precondition Required"
  | 429 => "Too Many Requests"
  | 431 => "Request Header Fields Too Large"
  | 451 => "Unavailable For Legal Reasons"
  | 500 => "Internal Server Error"
  | 501 => "Not Implemented"
  | 502 => "Bad Gateway"
  | 503 => "Service Unavailable"
  | 504 => "Gateway Timeout"
  | 505 => "HTTP Version Not Supported"
  | 506 => "Variant Also Negotiates"
  | 507 => "Insufficient Storage"
  | 508 => "Loop Detected"
  | 510 => "Not Extended"
  | 511 => "Network Authentication Required"
  | _ => "<unknown status code>"

/-- What a node says of a call that failed. -/
structure Failure where
  code : Int
  message : String
deriving DecidableEq, Repr

/-- The fields of a failure. -/
def Failure.fields : List String := ["code", "message", "data"]

/-- The failure in a JSON record. Its code is a signed number of 64 bits. -/
def Failure.ofJson? (json : Json) : Option Failure := do
  let r ← Json.Record.ofJson? fields 2 json
  let code ← r.required "code" fun
    | .int n => if n ≤ max64 / 2 then some n else none
    | _ => none
  return ⟨code, ← r.required "message" Json.str?⟩

/-- What a result is read as: the parts of its text that are wanted, and what they make up. -/
structure ResultForm (α : Type) where
  shape : Json.Shape
  read? : Json → Option α

/-- The response to a call. -/
structure Response (α : Type) where
  result : Option α
  error : Option Failure

namespace Response

/-- The fields of a response. -/
def fields : List String := ["jsonrpc", "id", "result", "error"]

/-- The response in a text, with a result of the form `form`. -/
def ofText? {α : Type} (form : ResultForm α) (text : String) : Option (Response α) := do
  let shape : Json.Shape :=
    .ofFields fields [("result", form.shape), ("error", .ofFields Failure.fields [])]
  let r ← Json.Record.ofJson? fields 4 (← Json.readAs? shape text)
  let _ ← r.required "jsonrpc" Json.str?
  let _ ← r.required "id" Json.nat?
  return ⟨← r.nullable "result" form.read?, ← r.nullable "error" Failure.ofJson?⟩

end Response

/-- Any value as a result, in normal form. -/
def ResultForm.any : ResultForm Json := ⟨.whole, fun json => some json.normal⟩

/-- A quantity in a record. -/
def quantity? (json : Json) : Option Nat := (Quantity.ofJson json).toOption

/-- The fields of a node's record of a transaction. -/
def transactionFields : List String :=
  ["hash", "from", "to", "input", "value", "gas", "gasPrice", "nonce"]

/-- The transaction in a node's record of it, without its receipt. -/
def transaction? (json : Json) : Option Transaction := do
  let r ← Json.Record.ofJson? transactionFields 2 json
  return {
    hash := some (← r.required "hash" Json.hash?)
    sender := ← r.required "from" Json.address?
    receiver := ← r.nullable "to" Json.address?
    input := ← r.withDefault "input" [] Json.bytes?
    value := ← r.withDefault "value" 0 Json.word?
    gasLimit := (← r.nullable "gas" quantity?).getD 0
    gasPrice := (← r.nullable "gasPrice" Json.word?).getD 0
    nonce := ← r.nullable "nonce" quantity?
    receipt := none }

/-- Transactions as results. -/
def ResultForm.transaction : ResultForm Transaction where
  shape := .ofFields transactionFields [("hash", .bytes), ("from", .bytes), ("to", .bytes)]
  read? := transaction?

/-- The fields of a node's record of a log. -/
def logFields : List String := ["address", "topics", "data"]

/-- The log in a node's record of it. -/
def log? (json : Json) : Option Log := do
  let r ← Json.Record.ofJson? logFields 1 json
  return {
    address := ← r.required "address" Json.address?
    topics := ← r.withDefault "topics" [] (Json.list? Json.hash?)
    data := ← r.withDefault "data" [] Json.bytes?
    step := none }

/-- The fields of a node's record of a receipt. -/
def receiptFields : List String := ["status", "gasUsed", "contractAddress", "logs"]

/-- The receipt in a node's record of it. Only the status 1 means success. -/
def receipt? (json : Json) : Option Receipt := do
  let r ← Json.Record.ofJson? receiptFields 0 json
  return {
    status := (← r.nullable "status" quantity?) == some 1
    gasUsed := (← r.nullable "gasUsed" quantity?).getD 0
    contractAddress := ← r.nullable "contractAddress" Json.address?
    logs := ← r.withDefault "logs" [] (Json.list? log?) }

/-- Receipts as results. -/
def ResultForm.receipt : ResultForm Receipt where
  shape :=
    .ofFields receiptFields [("contractAddress", .bytes),
      ("logs", .items (.ofFields logFields [("address", .bytes), ("topics", .items .bytes)]))]
  read? := receipt?

end TxTrace.Node

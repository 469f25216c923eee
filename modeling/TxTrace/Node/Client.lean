import TxTrace.Script

/-!
Asking a node for transactions and traces.
-/

namespace TxTrace.Node

/-- Why a node gave no answer of use. -/
inductive NodeError where
  /-- No reply, or one that is no response. -/
  | requestFailed
  /-- A reply with a status that is no success. -/
  | badStatus (status : Nat) (body : String)
  /-- A response without a result. -/
  | noResult
  | notFound (hash : String)
  | refused (failure : Failure)
deriving DecidableEq, Repr

def NodeError.message : NodeError → String
  | .requestFailed => "HTTP request failed"
  | .badStatus status body =>
    s!"Invalid RPC response: HTTP {status} {statusPhrase status}: {body}"
  | .noResult => "Invalid RPC response: Missing result field"
  | .notFound hash => s!"Transaction not found: {hash}"
  | .refused failure => s!"JSON-RPC error {failure.code}: {failure.message}"

/-- Whether `text` stands somewhere in `s`. -/
def mentions (text : List Char) : List Char → Bool
  | [] => text.isEmpty
  | c :: s => text.isPrefixOf (c :: s) || mentions text s

/-- Whether a failure speaks of something, in letters of either case. -/
def Failure.speaksOf (failure : Failure) (text : String) : Bool :=
  mentions text.toList (failure.message.toList.map Char.toLower)

/-- Whether a failure means that the node does not know the transaction. -/
def Failure.isNotFound (failure : Failure) : Bool :=
  failure.code == -32000 && failure.speaksOf "not found"

/-- Whether a failure means that the node cannot trace. -/
def Failure.isUnsupported (failure : Failure) : Bool :=
  failure.code == -32601 || failure.speaksOf "not supported" ||
    failure.speaksOf "does not exist" || failure.speaksOf "not available"

/-- The hash of a transaction with `0x` in front. -/
def markedHash (hash : String) : String := if hash.startsWith "0x" then hash else "0x" ++ hash

/-- The result in a reply to a request about the transaction `hash`, if there is one. -/
def Reply.result {α : Type} (reply : Reply) (hash : String) (form : ResultForm α) :
    Except NodeError (Option α) :=
  match reply with
  | .failed => .error .requestFailed
  | .received status body =>
    if 200 ≤ status ∧ status < 300 then
      match Response.ofText? form body with
      | none => .error .requestFailed
      | some ⟨_, some failure⟩ =>
        .error (if failure.isNotFound then .notFound hash else .refused failure)
      | some ⟨result, none⟩ => .ok result
    else .error (.badStatus status body)

/-- A conversation with a node. -/
abbrev Talk := ExceptT NodeError Script

/-- One call and its result, if there is one. -/
def call {α : Type} (url : String) (request : Request) (hash : String) (form : ResultForm α) :
    Talk (Option α) :=
  .mk <| .send url request fun reply => pure (reply.result hash form)

/-- The trace of a transaction, or why the node cannot trace. -/
def fetchTrace (url hash : String) : Talk TraceSource := do
  let hash := markedHash hash
  let capture := .obj [("enableMemory", .bool true), ("enableReturnData", .bool true)]
  let request : Request := ⟨"debug_traceTransaction", .arr [.str hash, capture], 1⟩
  try
    match ← call url request hash .any with
    | some trace => return .available trace
    | none => throw .noResult
  catch
    | .refused failure =>
      if failure.isUnsupported then return .unavailable failure.message
      else throw (.refused failure)
    | e => throw e

/-- A transaction and, once it is mined, its receipt. -/
def fetchTransaction (url hash : String) : Talk Transaction := do
  let hash := markedHash hash
  let params := .arr [.str hash]
  let request : Request := ⟨"eth_getTransactionByHash", params, 1⟩
  match ← call url request hash .transaction with
  | none => throw (.notFound hash)
  | some tx =>
    let receipt ← call url ⟨"eth_getTransactionReceipt", params, 2⟩ hash .receipt
    return { tx with receipt }

end TxTrace.Node

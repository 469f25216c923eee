/-!
Instructions, as far as they matter to the tree of calls: those that open a frame, those that end
one, and those that emit a log.
-/

namespace TxTrace

/-- The kind of call that opens a frame. -/
inductive CallType where
  | call
  | callCode
  | delegateCall
  | staticCall
  | create
  | create2
deriving DecidableEq, Repr, Inhabited

namespace CallType

/-- Whether the call creates a contract. -/
def isCreate : CallType → Bool
  | create | create2 => true
  | _ => false

/-- Whether the call has a value among its operands. -/
def hasValue : CallType → Bool
  | call | callCode | create | create2 => true
  | _ => false

/-- Whether the callee acts on the storage of its caller. -/
def borrowsContext : CallType → Bool
  | delegateCall | callCode => true
  | _ => false

/-- The mnemonic of the call. -/
def mnemonic : CallType → String
  | call => "CALL"
  | callCode => "CALLCODE"
  | delegateCall => "DELEGATECALL"
  | staticCall => "STATICCALL"
  | create => "CREATE"
  | create2 => "CREATE2"

end CallType

/-- An instruction that ends its frame. -/
inductive Terminal where
  | ret
  | stop
  | revert
  | invalid
  | selfDestruct
deriving DecidableEq, Repr, Inhabited

/-- What an instruction does to the tree of calls. -/
inductive OpKind where
  | call (type : CallType)
  | terminal (terminal : Terminal)
  /-- A log with so many topics. -/
  | log (topics : Nat)
  | other
deriving DecidableEq, Repr, Inhabited

namespace OpKind

/-- The upper-case form of a character, for the characters whose form has ASCII letters only. Any
    other character stands in no mnemonic in either form. -/
def upper (c : Char) : List Char :=
  if c = 'ß' then ['S', 'S']
  else if c = 'ı' then ['I']
  else if c = 'ſ' then ['S']
  else if c = 'ﬀ' then ['F', 'F']
  else if c = 'ﬁ' then ['F', 'I']
  else if c = 'ﬂ' then ['F', 'L']
  else if c = 'ﬃ' then ['F', 'F', 'I']
  else if c = 'ﬄ' then ['F', 'F', 'L']
  else if c = 'ﬅ' ∨ c = 'ﬆ' then ['S', 'T']
  else [c.toUpper]

/-- The kind of an instruction by its upper-case mnemonic. -/
def ofMnemonic : String → OpKind
  | "CALL" => call .call
  | "CALLCODE" => call .callCode
  | "DELEGATECALL" => call .delegateCall
  | "STATICCALL" => call .staticCall
  | "CREATE" => call .create
  | "CREATE2" => call .create2
  | "RETURN" => terminal .ret
  | "STOP" => terminal .stop
  | "REVERT" => terminal .revert
  | "INVALID" => terminal .invalid
  | "SELFDESTRUCT" | "SUICIDE" => terminal .selfDestruct
  | "LOG0" => log 0
  | "LOG1" => log 1
  | "LOG2" => log 2
  | "LOG3" => log 3
  | "LOG4" => log 4
  | _ => other

/-- The kind of an instruction by its mnemonic in any case. -/
def classify (op : String) : OpKind := ofMnemonic (String.ofList (op.toList.flatMap upper))

end OpKind

/-- How many bytes of data follow an instruction in the code: as many as its name says for `PUSH1`
    to `PUSH32`, and none for all others. -/
def pushSize (opcode : UInt8) : Nat :=
  if 0x60 ≤ opcode ∧ opcode ≤ 0x7F then opcode.toNat - 0x5F else 0

end TxTrace

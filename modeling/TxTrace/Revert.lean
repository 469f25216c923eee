import TxTrace.Registry.Basic

/-!
Why a frame failed, by the data it returned.
-/

namespace TxTrace

/-- The selector of `Error(string)`, the form of a failure with a text. -/
def errorSelector : Selector := 0x08c379a0

/-- The selector of `Panic(uint256)`, the form of a failure with a code of the compiler's. -/
def panicSelector : Selector := 0x4e487b71

/-- Why a frame failed. -/
inductive RevertReason where
  | text (message : String)
  | panic (code : Word)
  /-- An error that an interface declares. -/
  | custom (error : String) (arguments : List Abi.Argument)
  /-- No data at all. -/
  | silent
  /-- Data in no known form. -/
  | raw (data : Bytes)
deriving BEq, Repr

/-- What a code of the compiler's means. -/
def panicDescription (code : Word) : String :=
  match code.toNat with
  | 0x00 => "generic compiler panic"
  | 0x01 => "assertion failed"
  | 0x11 => "arithmetic overflow or underflow"
  | 0x12 => "division or modulo by zero"
  | 0x21 => "invalid enum conversion"
  | 0x22 => "incorrectly encoded storage byte array"
  | 0x31 => "pop on empty array"
  | 0x32 => "array index out of bounds"
  | 0x41 => "memory allocation overflow"
  | 0x51 => "call to zero-initialized internal function"
  | _ => "unknown panic code"

namespace RevertReason

/-- The code of a panic: at least two digits in hex, or decimal from 64 bits on. -/
def panicCode (code : Word) : String :=
  if code.toNat ≤ max64 then s!"0x{Hex.padded 2 code.toNat}" else toString code.toNat

def display : RevertReason → String
  | text message => message
  | panic code => s!"Panic({panicCode code}): {panicDescription code}"
  | custom error arguments =>
    error ++ "(" ++ ", ".intercalate (arguments.map (·.display)) ++ ")"
  | silent => "reverted without a reason"
  | raw data => Hex.ofBytes data

def toJson : RevertReason → Json
  | text message => .object [("StringReason", .str message)]
  | panic code =>
    .object [("PanicCode", .arr [.str (Hex.ofWord code), .str (panicDescription code)])]
  | custom error arguments =>
    .object [("CustomError", .arr [.str error, .arr (arguments.map (·.toJson))])]
  | silent => .str "NoReason"
  | raw data => .object [("RawData", .str (Hex.ofBytes data))]

/-- The reason in data that begins with a selector, when it has one of the known forms. Errors are
    looked up in the interface of the contract, then in all others. -/
def ofBody? (selector : Selector) (body : Bytes) (abi : Option Abi.Interface) (r : Registry) :
    Option RevertReason :=
  if selector = errorSelector then
    match Abi.decode [.string] body with
    | .ok [.string message] => some (text message)
    | _ => none
  else if selector = panicSelector then
    match Abi.decode [.uint .word] body with
    | .ok [.uint code _] => some (panic code)
    | _ => none
  else do
    let error ← (abi.bind (·.errorBySelector selector)).or ((r.findError? selector).map (·.2))
    let arguments ← (Abi.decodeArguments error.inputs body).toOption
    return custom error.name arguments

/-- The reason in the data that a frame returned. -/
def ofData (data : Bytes) (abi : Option Abi.Interface) (r : Registry) : RevertReason :=
  if data.isEmpty then silent
  else
    ((Selector.ofPayload? data).bind fun selector => ofBody? selector (data.drop 4) abi r).getD
      (raw data)

end RevertReason

end TxTrace

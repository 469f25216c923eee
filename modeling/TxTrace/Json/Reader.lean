import TxTrace.Hex
import TxTrace.Json.Number

/-!
Reading a JSON text. A scanner cuts the text into tokens, and a reader with a stack of open arrays
and objects puts them together; each takes one item after the other, so both end with their input.
What the text says is then read as a value, or as the parts of one that are wanted.
-/

namespace TxTrace.Json

/-- A token of a JSON text. -/
inductive Token where
  | openArr
  | closeArr
  | openObj
  | closeObj
  | comma
  | colon
  | scalar (written : Written)
deriving Repr

/-- Where the scanner stands: between tokens, or inside one, its characters so far last one first.
    Those of a string are missing once it holds half a pair. -/
inductive Scan where
  | between
  | number (read : List Char)
  | word (read : List Char)
  | string (read : Option (List Char))
  /-- After a backslash. -/
  | escape (read : Option (List Char))
  /-- Inside `\uXXXX`, `missing` digits before its end, after the first half `high` of a pair. -/
  | code (read : Option (List Char)) (missing value : Nat) (high : Option Nat)
  /-- After the first half of a pair, before the backslash of the second. -/
  | pair (read : Option (List Char)) (high : Nat)
  /-- After the first half of a pair and a backslash. -/
  | pairEscape (read : Option (List Char)) (high : Nat)

/-- The value of a bare word. -/
def bareWord? (cs : List Char) : Option Written :=
  if cs = "null".toList then some (.value .null)
  else if cs = "true".toList then some (.value (.bool true))
  else if cs = "false".toList then some (.value (.bool false))
  else none

/-- A character that can stand in a number. -/
def isNumberChar (c : Char) : Bool :=
  c.isDigit || c == '-' || c == '+' || c == '.' || c == 'e' || c == 'E'

namespace Scan

/-- A character between tokens. -/
def start (c : Char) : Option (List Token × Scan) :=
  if c = ' ' ∨ c = '\n' ∨ c = '\t' ∨ c = '\r' then some ([], between)
  else if c = '[' then some ([.openArr], between)
  else if c = ']' then some ([.closeArr], between)
  else if c = '\x7b' then some ([.openObj], between)
  else if c = '\x7d' then some ([.closeObj], between)
  else if c = ',' then some ([.comma], between)
  else if c = ':' then some ([.colon], between)
  else if c = '"' then some ([], string (some []))
  else if c = '-' ∨ c.isDigit then some ([], number [c])
  else if c.isAlpha then some ([], word [c])
  else none

/-- The token that ends where the scanner stands. -/
def finish : Scan → Option (List Token)
  | between => some []
  | number read => (number? read.reverse).map fun w => [.scalar w]
  | word read => (bareWord? read.reverse).map fun w => [.scalar w]
  | _ => none

/-- The character that a letter after a backslash denotes. -/
def escaped? (c : Char) : Option Char :=
  if c = '"' ∨ c = '\\' ∨ c = '/' then some c
  else if c = 'b' then some '\x08'
  else if c = 'f' then some '\x0c'
  else if c = 'n' then some '\n'
  else if c = 'r' then some '\r'
  else if c = 't' then some '\t'
  else none

/-- The string with these characters, if they all are there. -/
def ofChars : Option (List Char) → Written
  | some read => .value (.str (String.ofList read.reverse))
  | none => .halfPair

/-- A character inside a string. -/
def inString (read : Option (List Char)) (c : Char) : Option (List Token × Scan) :=
  if c = '"' then some ([.scalar (ofChars read)], between)
  else if c = '\\' then some ([], escape read)
  else if c.toNat < 0x20 then none
  else some ([], string (read.map (c :: ·)))

/-- A character after a backslash. -/
def inEscape (read : Option (List Char)) (c : Char) : Option (List Token × Scan) :=
  if c = 'u' then some ([], code read 4 0 none)
  else (escaped? c).map fun d => ([], string (read.map (d :: ·)))

/-- The end of `\uXXXX` with the code `n`: a character, the second half of the pair that `high`
    began, or the first half of a pair. -/
def endCode (read : Option (List Char)) (n : Nat) (high : Option Nat) : Scan :=
  let isHigh := 0xD800 ≤ n ∧ n < 0xDC00
  let isLow := 0xDC00 ≤ n ∧ n < 0xE000
  match high with
  | some h =>
    if isLow then
      string (read.map (Char.ofNat (0x10000 + (h - 0xD800) * 0x400 + (n - 0xDC00)) :: ·))
    else string none
  | none =>
    if isHigh then pair read n
    else if isLow then string none
    else string (read.map (Char.ofNat n :: ·))

/-- One character read: the tokens that it completes, and where the scanner stands after it. -/
def step (scan : Scan) (c : Char) : Option (List Token × Scan) :=
  match scan with
  | between => start c
  | number read =>
    if isNumberChar c then some ([], number (c :: read))
    else do
      let done ← finish (number read)
      let (tokens, scan) ← start c
      return (done ++ tokens, scan)
  | word read =>
    if c.isAlpha then some ([], word (c :: read))
    else do
      let done ← finish (word read)
      let (tokens, scan) ← start c
      return (done ++ tokens, scan)
  | string read => inString read c
  | escape read => inEscape read c
  | code read missing value high => do
    let d ← Hex.value? c
    if missing ≤ 1 then return ([], endCode read (value * 16 + d) high)
    else return ([], code read (missing - 1) (value * 16 + d) high)
  | pair read high => if c = '\\' then some ([], pairEscape read high) else inString none c
  | pairEscape read high =>
    if c = 'u' then some ([], code read 4 0 (some high)) else inEscape none c

end Scan

/-- The tokens of a text, after the tokens `done`, last one first. -/
def scanFrom (done : List Token) (scan : Scan) : List Char → Option (List Token)
  | [] => do
    let tokens ← scan.finish
    return (tokens.reverse ++ done).reverse
  | c :: cs => do
    let (tokens, scan) ← scan.step c
    scanFrom (tokens.reverse ++ done) scan cs

/-- The tokens of a text. -/
def tokens? (cs : List Char) : Option (List Token) := scanFrom [] .between cs

/-- An array or object that is still open: what stands in it, last one first. The values of an
    object's fields come after their key. -/
inductive Open where
  | arr (items : List Written)
  | obj (fields : List (Option String × Written))
  | field (fields : List (Option String × Written)) (key : Option String)

/-- What may come next. -/
inductive Expect where
  | value
  | valueOrClose
  | key
  | keyOrClose
  | colon
  | commaOrClose
  | nothing
deriving DecidableEq, Repr

/-- Where the reader stands: the arrays and objects still open, innermost first, what may come next,
    and all that was written once it is complete. -/
structure Reading where
  opened : List Open
  expect : Expect
  result : Written

/-- The key that a scalar is: a string, which need not have a value. -/
def Written.key? : Written → Option (Option String)
  | .value (.str key) => some (some key)
  | .halfPair => some none
  | _ => none

namespace Reading

/-- A complete value. -/
def value (r : Reading) (w : Written) : Reading :=
  match r.opened with
  | .arr items :: outer => { r with opened := .arr (w :: items) :: outer, expect := .commaOrClose }
  | .field fields key :: outer =>
    { r with opened := .obj ((key, w) :: fields) :: outer, expect := .commaOrClose }
  | _ => { r with expect := .nothing, result := w }

/-- The begin of an array or object. -/
def openWith (r : Reading) (o : Open) (expect : Expect) : Reading :=
  { r with opened := o :: r.opened, expect }

/-- The key of a field of the innermost object. -/
def key (r : Reading) (w : Written) : Option Reading :=
  match r.opened with
  | .obj fields :: outer =>
    w.key?.map fun key => { r with opened := .field fields key :: outer, expect := .colon }
  | _ => none

/-- One token read. -/
def step (r : Reading) (token : Token) : Option Reading :=
  match token, r.expect, r.opened with
  | .scalar w, .value, _ => some (r.value w)
  | .scalar w, .valueOrClose, _ => some (r.value w)
  | .openArr, .value, _ => some (r.openWith (.arr []) .valueOrClose)
  | .openArr, .valueOrClose, _ => some (r.openWith (.arr []) .valueOrClose)
  | .openObj, .value, _ => some (r.openWith (.obj []) .keyOrClose)
  | .openObj, .valueOrClose, _ => some (r.openWith (.obj []) .keyOrClose)
  | .scalar w, .key, _ => r.key w
  | .scalar w, .keyOrClose, _ => r.key w
  | .colon, .colon, _ => some { r with expect := .value }
  | .comma, .commaOrClose, .arr _ :: _ => some { r with expect := .value }
  | .comma, .commaOrClose, .obj _ :: _ => some { r with expect := .key }
  | .closeArr, .valueOrClose, .arr items :: outer =>
    some ({ r with opened := outer }.value (.arr items.reverse))
  | .closeArr, .commaOrClose, .arr items :: outer =>
    some ({ r with opened := outer }.value (.arr items.reverse))
  | .closeObj, .keyOrClose, .obj fields :: outer =>
    some ({ r with opened := outer }.value (.obj fields.reverse))
  | .closeObj, .commaOrClose, .obj fields :: outer =>
    some ({ r with opened := outer }.value (.obj fields.reverse))
  | _, _, _ => none

end Reading

/-- What a JSON text says, whether all of it has a value or not. -/
def written? (text : String) : Option Written := do
  let tokens ← tokens? text.toList
  let r ← tokens.foldlM Reading.step ⟨[], .value, .halfPair⟩
  if r.expect = .nothing then some r.result else none

/-- The value of what `shape` names in a JSON text, its fields in the order of the text. -/
def readAs? (shape : Shape) (text : String) : Option Json := do
  (← written? text).select 0 shape

/-- The value that a JSON text denotes, its fields in the order of the text. -/
def read? (text : String) : Option Json := readAs? .whole text

end TxTrace.Json

import TxTrace.Decimal.Shortest
import TxTrace.Hex
import TxTrace.Json.Basic

/-!
The text of a JSON value: on one line without blanks (`Json.compact`), or one item a line, indented
by two blanks a level (`Json.pretty`).
-/

namespace TxTrace.Json

/-- One character as it stands between the quotes of a string. -/
def escape (c : Char) : List Char :=
  if c = '"' then ['\\', '"']
  else if c = '\\' then ['\\', '\\']
  else if c = '\x08' then ['\\', 'b']
  else if c = '\x0c' then ['\\', 'f']
  else if c = '\n' then ['\\', 'n']
  else if c = '\r' then ['\\', 'r']
  else if c = '\t' then ['\\', 't']
  else if c.toNat < 0x20 then
    ['\\', 'u', '0', '0', Hex.digit (c.toNat / 16), Hex.digit (c.toNat % 16)]
  else [c]

/-- A string in quotes. -/
def quoted (s : String) : String :=
  String.ofList ('"' :: s.toList.flatMap escape ++ ['"'])

/-- How a decimal `digits * 10 ^ exponent` is written. The point stands among the digits while the
    leading one is worth at least `1e-5` and less than `1e16`, and a whole number ends in `.0`;
    outside that range an exponent with its sign follows the first digit and the point. -/
def decimalText (d : Decimal.Scientific) : String :=
  let ds := Nat.toDigits 10 d.digits
  let whole : Int := ds.length + d.exponent
  String.ofList <|
    if 0 ≤ d.exponent ∧ whole ≤ 16 then ds ++ List.replicate d.exponent.toNat '0' ++ ['.', '0']
    else if 0 < whole ∧ whole ≤ 16 then ds.take whole.toNat ++ '.' :: ds.drop whole.toNat
    else if -5 < whole ∧ whole ≤ 0 then
      '0' :: '.' :: List.replicate (-whole).toNat '0' ++ ds
    else
      let point := if ds.length = 1 then [] else ['.']
      let sign := if whole < 1 then '-' else '+'
      ds.take 1 ++ point ++ ds.drop 1 ++ 'e' :: sign :: Nat.toDigits 10 (whole - 1).natAbs

/-- A double by its shortest decimal. What is no finite number is written `null`. -/
def floatText (x : Float) : String :=
  let bits := x.toBits
  let sign := if bits >>> 63 = 0 then "" else "-"
  if Decimal.exponentField bits = 0x7FF then "null"
  else if bits <<< 1 = 0 then sign ++ "0.0"
  else sign ++ decimalText (Decimal.Binary.ofBits bits).shortest

mutual

/-- The text of a value on one line, without blanks. -/
def compact : Json → String
  | null => "null"
  | bool b => if b then "true" else "false"
  | int n => toString n
  | float x => floatText x
  | str s => quoted s
  | arr items => "[" ++ ",".intercalate (compactItems items) ++ "]"
  | obj fields => "\x7b" ++ ",".intercalate (compactFields fields) ++ "\x7d"

/-- The texts of the items of an array. -/
def compactItems : List Json → List String
  | [] => []
  | item :: items => item.compact :: compactItems items

/-- The texts of the fields of an object. -/
def compactFields : List (String × Json) → List String
  | [] => []
  | (key, value) :: fields => (quoted key ++ ":" ++ value.compact) :: compactFields fields

end

/-- Lines between brackets, each on its own line and indented by `level + 1` steps. -/
def block (level : Nat) (opening closing : String) (lines : List String) : String :=
  let indent (k : Nat) := "\n" ++ String.ofList (List.replicate (2 * k) ' ')
  match lines with
  | [] => opening ++ closing
  | lines => opening ++ ",".intercalate (lines.map (indent (level + 1) ++ ·)) ++ indent level ++ closing

mutual

/-- The text of a value that stands at the indentation `level`, one item or field a line. -/
def prettyAt (level : Nat) : Json → String
  | arr items => block level "[" "]" (prettyItems (level + 1) items)
  | obj fields => block level "\x7b" "\x7d" (prettyFields (level + 1) fields)
  | null => "null"
  | bool b => if b then "true" else "false"
  | int n => toString n
  | float x => floatText x
  | str s => quoted s

/-- The texts of the items of an array. -/
def prettyItems (level : Nat) : List Json → List String
  | [] => []
  | item :: items => item.prettyAt level :: prettyItems level items

/-- The texts of the fields of an object. -/
def prettyFields (level : Nat) : List (String × Json) → List String
  | [] => []
  | (key, value) :: fields =>
    (quoted key ++ ": " ++ value.prettyAt level) :: prettyFields level fields

end

/-- The text of a value, one item or field a line. -/
def pretty (json : Json) : String := json.prettyAt 0

end TxTrace.Json

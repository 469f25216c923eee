import TxTrace.Text.Numeral
import TxTrace.Text.Printable

/-!
Texts and characters in quotes. A backslash marks what is not shown as itself: the quote, the
backslash, the usual control characters by a letter, and every other unprintable character by the
hex number of its code point in braces.
-/

namespace TxTrace.Text

/-- One character as it stands between the quotes `quote`. -/
def escape (quote c : Char) : List Char :=
  if c = '\x00' then ['\\', '0']
  else if c = '\t' then ['\\', 't']
  else if c = '\r' then ['\\', 'r']
  else if c = '\n' then ['\\', 'n']
  else if c = '\\' ∨ c = quote then ['\\', c]
  else if isPrintable c then [c]
  else ['\\', 'u', '\x7b'] ++ Nat.toDigits 16 c.toNat ++ ['\x7d']

/-- A text in double quotes. -/
def quote (s : String) : String :=
  String.ofList ('"' :: s.toList.flatMap (escape '"') ++ ['"'])

/-- A character in single quotes. -/
def quoteChar (c : Char) : String :=
  String.ofList ('\'' :: escape '\'' c ++ ['\''])

end TxTrace.Text

/-!
Texts filled up with blanks to a width. Longer texts stay as they are.
-/

namespace TxTrace.Text

/-- A text with blanks before it, up to a width. -/
def padLeft (width : Nat) (s : String) : String := String.ofList (s.toList.leftpad width ' ')

/-- A text with blanks after it, up to a width. -/
def padRight (width : Nat) (s : String) : String := String.ofList (s.toList.rightpad width ' ')

/-- Lines that each have a name and, below one another, what it means. -/
def table (rows : List (String × String)) : List String :=
  let width := rows.foldl (fun n row => max n row.1.length) 0
  rows.map fun (name, meaning) => s!"  {padRight width name}  {meaning}"

end TxTrace.Text

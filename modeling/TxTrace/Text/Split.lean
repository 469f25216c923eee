/-!
Texts cut at a separator, and texts cut into lines.
-/

namespace TxTrace.Text

/-- The parts of a text between the characters `sep`, `current` being the part at hand, last
    character first. -/
def splitFrom (sep : Char) (current : List Char) : List Char → List (List Char)
  | [] => [current.reverse]
  | c :: cs =>
    if c = sep then current.reverse :: splitFrom sep [] cs else splitFrom sep (c :: current) cs

/-- The parts of a text between the characters `sep`: one more than there are of them. -/
def splitOn (sep : Char) (cs : List Char) : List (List Char) := splitFrom sep [] cs

/-- A line without the carriage return before its end. -/
def dropReturn (line : List Char) : List Char :=
  match line.reverse with
  | '\r' :: rest => rest.reverse
  | _ => line

/-- The lines of a text, each ending at a line feed or a carriage return and a line feed. What
    follows the last of these is a line unless it is empty. -/
def lines (cs : List Char) : List (List Char) :=
  let parts := splitOn '\n' cs
  let last := parts.getLastD []
  parts.dropLast.map dropReturn ++ if last.isEmpty then [] else [last]

/-- Lines as one text, each ended by a line feed. -/
def unlines (lines : List String) : String := String.join (lines.map (· ++ "\n"))

end TxTrace.Text

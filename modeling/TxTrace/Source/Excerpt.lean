import TxTrace.Size
import TxTrace.Text.Padding
import TxTrace.Text.Split
import TxTrace.Text.Utf8

/-!
Places in a source text, and the text of excerpts with line numbers. Offsets count bytes.
-/

namespace TxTrace.Source

/-- The byte that ends a line. -/
def lineFeed : UInt8 := 10

/-- Line and column of the byte at `offset` of a text, both counted from 1. Offsets past the end
    stand at the end. -/
def lineColumn (source : String) (offset : Nat) : Nat × Nat :=
  let before := (Text.utf8 source).take offset
  let line := before.count lineFeed + 1
  (line, (before.reverse.takeWhile (· != lineFeed)).length + 1)

/-- The text of the rows of an excerpt: line numbers, whether each is marked, and the text of its
    line. -/
def excerptText (rows : List (Nat × Bool × List Char)) : String :=
  let width := (toString ((rows.getLast?.map (·.1)).getD 0)).length
  String.join <| rows.map fun (number, marked, text) =>
    let mark := if marked then ">" else " "
    s!"{mark} {Text.padLeft width (toString number)} | {String.ofList text}\n"

end TxTrace.Source

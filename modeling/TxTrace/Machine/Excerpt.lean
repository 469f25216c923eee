import TxTrace.Machine.Size
import TxTrace.Source.Excerpt

/-!
Excerpts of a source text, where offsets, line numbers and pads have 64 bits. An addition or a subtraction
that has no such number is a fault.
-/

namespace TxTrace.Machine

open Source (lineFeed)

/-- The position of the last line feed among some bytes. -/
def lastFeed? (bs : Bytes) : Option UInt64 :=
  (bs.reverse.findIdx? (· == lineFeed)).map fun after => .ofNat (bs.length - 1 - after)

/-- The position after the last line feed, where the last line of some bytes starts. -/
def lineStart (bs : Bytes) : Except (Halt Empty) UInt64 :=
  match lastFeed? bs with
  | some feed => add feed 1
  | none => .ok 0

/-- Line and column of the byte at `offset` of a text, both counted from 1. -/
def lineColumn (source : String) (offset : UInt64) : Except (Halt Empty) (UInt64 × UInt64) := do
  let offset := min offset (length (Text.utf8 source))
  let before ← take (Text.utf8 source) offset
  let line ← add (.ofNat (before.count lineFeed)) 1
  let start ← lineStart before
  let column ← add (← sub offset start) 1
  return (line, column)

/-- The numbers from `start` up to `stop`, itself one of them. -/
def upTo (start stop : UInt64) : List UInt64 :=
  (List.range' start.toNat (stop.toNat + 1 - start.toNat)).map .ofNat

/-- The row of an excerpt with some number, given the lines of the text and those that are marked. -/
def excerptRow (lines : List (List Char)) (first last number : UInt64) :
    Except (Halt Empty) (Nat × Bool × List Char) := do
  let index ← sub number 1
  return (number.toNat, decide (first ≤ number ∧ number ≤ last), lines.getD index.toNat [])

/-- The numbers of the rows of an excerpt from a text with `count` lines, of which those from `first` up to
    `last` are marked. -/
def rowNumbers (count first last pad : UInt64) : Except (Halt Empty) (List UInt64) := do
  let stop ← add last pad
  return upTo (max (subSat first pad) 1) (min stop (max count 1))

/-- The rows of an excerpt. -/
def excerptRows (source : String) (offset len pad : UInt64) :
    Except (Halt Empty) (List (Nat × Bool × List Char)) := do
  let (first, _) ← lineColumn source offset
  let (last, _) ← lineColumn source (addSat offset (subSat len 1))
  let lines := Text.lines source.toList
  let numbers ← rowNumbers (.ofNat lines.length) first last pad
  numbers.mapM (excerptRow lines first last)

/-- The lines of a text that the `len` bytes at `offset` touch, marked, with `pad` lines before and after
    them. -/
def excerpt (source : String) (offset len pad : UInt64) : Except (Halt Empty) String :=
  (excerptRows source offset len pad).map Source.excerptText

end TxTrace.Machine

import TxTrace.Proofs.Source.Place
import TxTrace.Proofs.Text.Lines

/-!
Excerpts of a source text, row by row, with offsets and line numbers of any size. An excerpt shows the lines
from `pad` before the first marked one to `pad` after the last, as far as the text has them, each once and under
its number (`splitOn_excerpt`).
-/

namespace TxTrace.Source

open Text (LineReads InLine)

/-! ### Places -/

/-- The number of the line where a range of a text starts. -/
def firstLine (source : String) (offset : Nat) : Nat := (lineColumn source offset).1

/-- The number of the line where a range of `length` bytes ends. An empty range ends where it
    starts, and one that goes on past the text at the end of the text. -/
def lastLine (source : String) (offset length : Nat) : Nat :=
  (lineColumn source (offset + (max length 1 - 1))).1

variable {source : String} {offset length pad : Nat}

/-- The line number of an offset: that of the line with its byte. Past the last byte it is one more
    than there are line feeds. -/
def LineNumber (source : String) (offset number : Nat) : Prop :=
  if offset < (Text.utf8 source).length then InLine source.toList number offset
  else number = source.toList.count '\n' + 1

theorem inLine_lineColumn (h : offset < (Text.utf8 source).length) :
    InLine source.toList (lineColumn source offset).1 offset :=
  Text.inLine_of_lt h

theorem lineNumber_lineColumn (source : String) (offset : Nat) :
    LineNumber source offset (lineColumn source offset).1 := by
  unfold LineNumber
  split
  · next hlt => exact inLine_lineColumn hlt
  · next hge =>
    show ((Text.utf8 source).take offset).count 10 + 1 = _
    rw [List.take_of_length_le (Nat.le_of_not_lt hge)]
    exact congrArg (· + 1) (Text.count_encode source.toList)

theorem lineColumn_mono {other : Nat} (h : offset ≤ other) :
    (lineColumn source offset).1 ≤ (lineColumn source other).1 :=
  Nat.succ_le_succ ((List.take_sublist_take_left h).count_le _)

/-- Offsets that stop at the largest one find the same last line. -/
theorem lineColumn_min_eq_lastLine (h : (Text.utf8 source).length ≤ max64) :
    (lineColumn source (min (offset + (length - 1)) max64)).1 = lastLine source offset length := by
  rw [lineColumn_min h, lastLine, show max length 1 - 1 = length - 1 by omega]

theorem firstLine_le_lastLine : firstLine source offset ≤ lastLine source offset length :=
  lineColumn_mono (Nat.le_add_right _ _)

/-- Each line but the first comes after a line feed. -/
theorem lastLine_le (source : String) (offset length : Nat) :
    lastLine source offset length ≤ (Text.utf8 source).length + 1 :=
  Nat.succ_le_succ (Nat.le_trans List.count_le_length (List.length_take_le' _ _))

theorem firstLine_le_length_lines (h : offset < (Text.utf8 source).length) :
    firstLine source offset ≤ (Text.lines source.toList).length := by
  obtain ⟨before, raw, after, hline, -⟩ := inLine_lineColumn h
  exact (Text.le_length_lines_iff (Nat.succ_pos _)).2 ⟨_, before, raw, after, hline, rfl⟩

/-! ### Rows -/

/-- The rows of an excerpt. -/
def excerptRows (source : String) (offset length pad : Nat) : List (Nat × Bool × List Char) :=
  let first := firstLine source offset
  let last := lastLine source offset length
  let lines := Text.lines source.toList
  let start := max (first - pad) 1
  let stop := min (last + pad) (max lines.length 1)
  (List.range' start (stop + 1 - start)).map fun number =>
    (number, decide (first ≤ number ∧ number ≤ last), lines.getD (number - 1) [])

/-- The text of an excerpt. -/
def excerpt (source : String) (offset length pad : Nat) : String :=
  excerptText (excerptRows source offset length pad)

/-- A row: its mark, the number of its line filled up to a width, and the text of the line. -/
def row (width : Nat) (marked : Bool) (number : Nat) (text : List Char) : List Char :=
  (if marked then '>' else ' ') :: ' ' :: ((Text.padLeft width (toString number)).toList ++
    (" | ".toList ++ text))

theorem newline_not_mem_toString (n : Nat) : '\n' ∉ (toString n).toList := by
  rw [Nat.toString_eq_ofList_toDigits, String.toList_ofList]
  intro hmem
  exact absurd (Nat.isDigit_of_mem_toDigits (by decide) (by decide) hmem) (by decide)

theorem newline_not_mem_row {text : List Char} (h : '\n' ∉ text) (width : Nat) (marked : Bool)
    (number : Nat) : '\n' ∉ row width marked number text := by
  have hnumber : '\n' ∉ (Text.padLeft width (toString number)).toList := by
    rw [Text.padLeft, String.toList_ofList, List.leftpad, List.mem_append, not_or]
    exact ⟨fun hmem => absurd (List.eq_of_mem_replicate hmem) (by decide), newline_not_mem_toString number⟩
  rw [row, List.mem_cons, List.mem_cons, List.mem_append, List.mem_append]
  rintro (hmark | hblank | hmem | hbar | hmem)
  · revert hmark
    cases marked <;> decide
  · exact absurd hblank (by decide)
  · exact hnumber hmem
  · exact absurd hbar (by decide)
  · exact h hmem

theorem toList_excerpt (source : String) (offset length pad : Nat) :
    (excerpt source offset length pad).toList =
      ((excerptRows source offset length pad).map fun (number, marked, text) =>
        row (toString (((excerptRows source offset length pad).getLast?.map (·.1)).getD 0)).length marked
          number text).flatMap (· ++ ['\n']) := by
  rw [excerpt, excerptText, String.toList_join, List.flatMap_map, List.flatMap_map]
  congr 1
  funext ⟨number, marked, text⟩
  cases marked <;> simp [row, toString]

/-! ### Lines shown -/

/-- The number of the last row. -/
def lastShown (source : String) (offset length pad : Nat) : Nat :=
  min (lastLine source offset length + pad) (Text.lines source.toList).length

/-- The numbers of the rows. -/
def shown (source : String) (offset length pad : Nat) : List Nat :=
  let start := max 1 (firstLine source offset - pad)
  List.range' start (lastShown source offset length pad + 1 - start)

theorem mem_shown {k : Nat} : k ∈ shown source offset length pad ↔
    max 1 (firstLine source offset - pad) ≤ k ∧ k ≤ lastShown source offset length pad := by
  rw [shown, List.mem_range'_1]
  omega

/-- The line with the byte at `offset` is shown. -/
theorem firstLine_mem_shown (h : offset < (Text.utf8 source).length) :
    firstLine source offset ∈ shown source offset length pad := by
  have hle : firstLine source offset ≤ lastLine source offset length := firstLine_le_lastLine
  have hlength := firstLine_le_length_lines h
  have hpos : 1 ≤ firstLine source offset := Nat.succ_pos _
  rw [mem_shown, lastShown]
  omega

theorem getLast?_shown (h : offset < (Text.utf8 source).length) :
    (shown source offset length pad).getLast? = some (lastShown source offset length pad) := by
  have hmem : firstLine source offset ∈ shown source offset length pad := firstLine_mem_shown h
  rw [mem_shown] at hmem
  rw [shown, List.getLast?_range', if_neg (by omega)]
  congr 1
  omega

theorem lineReads_of_mem_shown {k : Nat} (h : k ∈ shown source offset length pad) :
    LineReads source.toList k ((Text.lines source.toList).getD (k - 1) []) := by
  rw [mem_shown, lastShown] at h
  obtain ⟨hpos, hle⟩ : 1 ≤ k ∧ k ≤ (Text.lines source.toList).length := by omega
  have hlt : k - 1 < (Text.lines source.toList).length := by omega
  have hreads := Text.getElem?_lines_eq_some_iff.1 (List.getElem?_eq_getElem hlt)
  rw [Nat.sub_add_cancel hpos] at hreads
  rw [List.getD_eq_getElem?_getD, List.getElem?_eq_getElem hlt, Option.getD_some]
  exact hreads

theorem excerptRows_eq_map (hoffset : offset < (Text.utf8 source).length) :
    excerptRows source offset length pad = (shown source offset length pad).map fun k =>
      (k, decide (firstLine source offset ≤ k ∧ k ≤ lastLine source offset length),
        (Text.lines source.toList).getD (k - 1) []) := by
  have hlines : max (Text.lines source.toList).length 1 = (Text.lines source.toList).length :=
    Nat.max_eq_left (Nat.le_trans (Nat.succ_pos _) (firstLine_le_length_lines hoffset))
  rw [excerptRows, hlines, Nat.max_comm]
  rfl

/-- More context shows all that less context does. -/
theorem excerptRows_subset {pad' : Nat} (hoffset : offset < (Text.utf8 source).length) (hle : pad ≤ pad') :
    excerptRows source offset length pad ⊆ excerptRows source offset length pad' := by
  have hshown : shown source offset length pad ⊆ shown source offset length pad' := by
    intro k hk
    rw [mem_shown, lastShown] at hk ⊢
    omega
  rw [excerptRows_eq_map hoffset, excerptRows_eq_map hoffset]
  exact List.map_subset _ hshown

/-- An excerpt has a row for each line shown, once and in order, with the text of the line. It is marked if
    and only if the range touches the line. -/
theorem splitOn_excerpt (hoffset : offset < (Text.utf8 source).length) :
    ∃ text : Nat → List Char,
      (∀ k ∈ shown source offset length pad, LineReads source.toList k (text k)) ∧
      Text.splitOn '\n' (excerpt source offset length pad).toList =
        (shown source offset length pad).map (fun k =>
          row (toString (lastShown source offset length pad)).length
            (decide (firstLine source offset ≤ k ∧ k ≤ lastLine source offset length)) k (text k)) ++ [[]] := by
  refine ⟨fun k => (Text.lines source.toList).getD (k - 1) [], fun k => lineReads_of_mem_shown, ?_⟩
  have hrows := @excerptRows_eq_map source offset length pad hoffset
  have hwidth : ((excerptRows source offset length pad).getLast?.map (·.1)).getD 0 =
      lastShown source offset length pad := by
    rw [hrows, List.getLast?_map, getLast?_shown hoffset]
    rfl
  rw [toList_excerpt, hwidth, hrows, List.map_map, Text.splitOn_flatMap]
  · rfl
  · intro part hpart
    obtain ⟨k, hk, rfl⟩ := List.mem_map.1 hpart
    exact newline_not_mem_row (lineReads_of_mem_shown hk).not_mem _ _ _

end TxTrace.Source

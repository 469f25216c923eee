import TxTrace.Machine.Excerpt
import TxTrace.Proofs.Machine.Size
import TxTrace.Proofs.Source.Excerpt

/-!
Excerpts of a source text on a machine, where offsets, line numbers and pads have 64 bits. They come out as they
do with numbers, with a row for each line shown (`excerpt_rows`), unless the number of the last line and the pad
add up to more than 64 bits: of the additions that an excerpt takes, only that one can overflow. Where it does
not, a larger pad shows all that a smaller one does (`excerptRows_overflow_iff`). Texts are shorter than the
largest size.
-/

namespace TxTrace.Machine

open Source (LineNumber firstLine lastLine lastShown lineFeed row shown)
open Text (LineReads)

/-! ### Lines and columns -/

variable {source : String} {offset len pad : UInt64}

theorem length_takeWhile_lineFeed (bs : Bytes) :
    (bs.takeWhile (· != lineFeed)).length = bs.findIdx (· == lineFeed) := by
  have hnot : (fun b : UInt8 => !(b != lineFeed)) = (· == lineFeed) := by
    funext b
    exact Bool.not_not _
  rw [List.takeWhile_eq_take_findIdx_not, hnot, List.length_take, Nat.min_eq_left List.findIdx_le_length]

/-- The bytes from the start of the last line on are those after the last line feed. -/
theorem exists_lineStart {bs : Bytes} (hbs : bs.length < max64) :
    ∃ start, lineStart bs = .ok start ∧
      start.toNat + (bs.reverse.takeWhile (· != lineFeed)).length = bs.length := by
  rw [length_takeWhile_lineFeed, lineStart, lastFeed?]
  cases hfeed : bs.reverse.findIdx? (· == lineFeed) with
  | none =>
    refine ⟨0, rfl, ?_⟩
    rw [UInt64.toNat_zero, Nat.zero_add, List.findIdx_eq_length.2 (by simpa using hfeed), List.length_reverse]
  | some after =>
    obtain ⟨hlt, hafter⟩ := List.findIdx?_eq_some_iff_findIdx_eq.1 hfeed
    rw [List.length_reverse] at hlt
    have hpos : (UInt64.ofNat (bs.length - 1 - after)).toNat = bs.length - 1 - after :=
      toNat_ofNat (by omega)
    have hle : (UInt64.ofNat (bs.length - 1 - after)).toNat + (1 : UInt64).toNat ≤ max64 := by
      rw [hpos, UInt64.toNat_one]
      omega
    refine ⟨_, add_eq_ok hle, ?_⟩
    rw [toNat_add hle, hpos, hafter, UInt64.toNat_one]
    omega

/-- Lines and columns come out as they do with numbers. -/
theorem exists_lineColumn (hsize : (Text.utf8 source).length < max64) (offset : UInt64) :
    ∃ line column, lineColumn source offset = .ok (line, column) ∧
      (line.toNat, column.toNat) = Source.lineColumn source offset.toNat := by
  have hlength : (length (Text.utf8 source)).toNat = (Text.utf8 source).length :=
    toNat_length (Nat.le_of_lt hsize)
  have htake : take (ε := Empty) (Text.utf8 source) (min offset (length (Text.utf8 source))) =
      .ok ((Text.utf8 source).take offset.toNat) := take_min_eq_ok hlength.symm offset
  obtain ⟨before, hbefore⟩ : ∃ before, (Text.utf8 source).take offset.toNat = before := ⟨_, rfl⟩
  have hmin : (min offset (length (Text.utf8 source))).toNat = before.length := by
    rw [UInt64.toNat_min, hlength, ← hbefore, List.length_take]
  have hshort : before.length < max64 :=
    Nat.lt_of_le_of_lt (hbefore ▸ List.length_take_le' _ _) hsize
  have hcount : before.count lineFeed ≤ before.length := List.count_le_length
  have hfeeds : (UInt64.ofNat (before.count lineFeed)).toNat = before.count lineFeed :=
    toNat_ofNat (by omega)
  have hline : (UInt64.ofNat (before.count lineFeed)).toNat + (1 : UInt64).toNat ≤ max64 := by
    rw [hfeeds, UInt64.toNat_one]
    omega
  obtain ⟨start, hstart, hafter⟩ := exists_lineStart hshort
  have hsub : start.toNat ≤ (min offset (length (Text.utf8 source))).toNat := by omega
  have hdiff : (min offset (length (Text.utf8 source)) - start).toNat =
      (before.reverse.takeWhile (· != lineFeed)).length := by
    rw [UInt64.toNat_sub_of_le _ _ (UInt64.le_iff_toNat_le.2 hsub)]
    omega
  have hcolumn : (min offset (length (Text.utf8 source)) - start).toNat + (1 : UInt64).toNat ≤ max64 := by
    rw [hdiff, UInt64.toNat_one]
    omega
  refine ⟨.ofNat (before.count lineFeed) + 1, min offset (length (Text.utf8 source)) - start + 1, ?_, ?_⟩
  · rw [lineColumn, htake, hbefore, ok_bind, add_eq_ok hline, ok_bind, hstart, ok_bind, sub_eq_ok hsub, ok_bind,
      add_eq_ok hcolumn, ok_bind]
    rfl
  · rw [toNat_add hline, toNat_add hcolumn, hfeeds, hdiff, Source.lineColumn, hbefore]
    rfl

/-! ### Rows -/

theorem mapM_excerptRow {lines : List (List Char)} {first last : UInt64} {numbers : List UInt64}
    (h : ∀ number ∈ numbers, 1 ≤ number.toNat) :
    numbers.mapM (excerptRow lines first last) =
      .ok ((numbers.map (·.toNat)).map fun number =>
        (number, decide (first.toNat ≤ number ∧ number ≤ last.toNat), lines.getD (number - 1) [])) := by
  induction numbers with
  | nil => rfl
  | cons number numbers ih =>
    obtain ⟨hnumber, hnumbers⟩ := List.forall_mem_cons.1 h
    have hone : (1 : UInt64).toNat ≤ number.toNat := hnumber
    have hindex : (number - 1).toNat = number.toNat - 1 :=
      UInt64.toNat_sub_of_le _ _ (UInt64.le_iff_toNat_le.2 hone)
    rw [List.mapM_cons, ih hnumbers, excerptRow, sub_eq_ok hone, ok_bind, hindex]
    rfl

theorem map_toNat_upTo (start stop : UInt64) :
    (upTo start stop).map (·.toNat) = List.range' start.toNat (stop.toNat + 1 - start.toNat) := by
  rw [upTo, List.map_map]
  refine (List.map_congr_left fun n hn => ?_).trans (List.map_id _)
  have hle : n ≤ stop.toNat := by
    rw [List.mem_range'_1] at hn
    omega
  exact toNat_ofNat (Nat.le_trans hle (toNat_le stop))

theorem length_lines_le (h : (Text.utf8 source).length < max64) :
    (Text.lines source.toList).length ≤ max64 := by
  have hcount : source.toList.count '\n' ≤ (Text.utf8 source).length := by
    rw [← Text.count_encode]
    exact List.count_le_length
  rcases Nat.eq_zero_or_pos (Text.lines source.toList).length with hzero | hpos
  · omega
  · -- the last line comes after all line feeds but its own
    obtain ⟨text, before, raw, after, hline, -⟩ := (Text.le_length_lines_iff hpos).1 (Nat.le_refl _)
    have hnumber := hline.number_eq
    have hbefore : before.count '\n' ≤ source.toList.count '\n' := by
      rw [hline.eq_append]
      exact (List.sublist_append_left _ _).count_le _
    omega

theorem one_le_of_mem_upTo {start stop number : UInt64} (h : number ∈ upTo (max start 1) stop) :
    1 ≤ number.toNat := by
  have hmem := List.mem_map_of_mem (f := (·.toNat)) h
  rw [map_toNat_upTo, List.mem_range'_1, UInt64.toNat_max] at hmem
  exact Nat.le_trans (Nat.le_max_right _ _) hmem.1

theorem rowNumbers_eq_error {count first last : UInt64} (h : max64 < last.toNat + pad.toNat) :
    rowNumbers count first last pad = .error (.fault .overflow) := by
  rw [rowNumbers, add, if_neg (Nat.not_le.2 h)]
  rfl

theorem rowNumbers_eq_ok {count first last : UInt64} (h : last.toNat + pad.toNat ≤ max64) :
    rowNumbers count first last pad =
      .ok (upTo (max (subSat first pad) 1) (min (last + pad) (max count 1))) := by
  rw [rowNumbers, add_eq_ok h]
  rfl

/-- Rows come out as they do with numbers, unless the one addition of the pad overflows. -/
theorem overflowsWhen_excerptRows (hsize : (Text.utf8 source).length < max64) (offset len pad : UInt64) :
    OverflowsWhen (max64 < lastLine source offset.toNat len.toNat + pad.toNat)
      (excerptRows source offset len pad)
      (.ok (Source.excerptRows source offset.toNat len.toNat pad.toNat)) := by
  obtain ⟨first, _, hfirst, hfirstLine⟩ := exists_lineColumn hsize offset
  obtain ⟨last, _, hlast, hlastLine⟩ := exists_lineColumn hsize (addSat offset (subSat len 1))
  have hfirstNumber : firstLine source offset.toNat = first.toNat := by rw [firstLine, ← hfirstLine]
  have hlastNumber : lastLine source offset.toNat len.toNat = last.toNat := by
    rw [← Source.lineColumn_min_eq_lastLine (Nat.le_of_lt hsize), ← UInt64.toNat_one, ← toNat_subSat,
      ← toNat_addSat, ← hlastLine]
  have hlines : (UInt64.ofNat (Text.lines source.toList).length).toNat = (Text.lines source.toList).length :=
    toNat_ofNat (length_lines_le hsize)
  rw [hlastNumber, excerptRows, hfirst, hlast, ok_bind]
  dsimp only
  rw [ok_bind]
  dsimp only
  constructor
  case fault =>
    intro hlarge
    rw [rowNumbers_eq_error hlarge]
    rfl
  case eq =>
    intro hsmall
    have hadd : last.toNat + pad.toNat ≤ max64 := Nat.not_lt.1 hsmall
    rw [rowNumbers_eq_ok hadd, ok_bind, mapM_excerptRow fun _ => one_le_of_mem_upTo, map_toNat_upTo,
      UInt64.toNat_max, UInt64.toNat_min, UInt64.toNat_max, toNat_subSat, toNat_add hadd, hlines,
      UInt64.toNat_one, Source.excerptRows, hfirstNumber, hlastNumber]
    rfl

theorem overflowsWhen_excerpt (hsize : (Text.utf8 source).length < max64) (offset len pad : UInt64) :
    OverflowsWhen (max64 < lastLine source offset.toNat len.toNat + pad.toNat) (excerpt source offset len pad)
      (.ok (Source.excerpt source offset.toNat len.toNat pad.toNat)) :=
  (overflowsWhen_excerptRows hsize offset len pad).map Source.excerptText

/-- Only a pad close to the largest size overflows. -/
theorem excerpt_eq_ok (h : (Text.utf8 source).length + pad.toNat < max64) (offset len : UInt64) :
    excerpt source offset len pad =
      .ok (Source.excerpt source offset.toNat len.toNat pad.toNat) := by
  have hlast := Source.lastLine_le source offset.toNat len.toNat
  exact (overflowsWhen_excerpt (by omega) offset len pad).eq (by omega)

/-- An excerpt has exactly the rows from `pad` lines before the range to `pad` lines after it, as far
    as the text has lines. Each is there once, in order, with the text of its line, and marked if and
    only if the range touches its line. So the line with the byte at `offset` is shown and marked. On a machine
    it comes out so where all numbers have 64 bits. -/
theorem excerpt_rows {offset length pad : Nat} (hoffset : offset < (Text.utf8 source).length) :
    ((Text.utf8 source).length < max64 → length ≤ max64 → lastLine source offset length + pad ≤ max64 →
      excerpt source (.ofNat offset) (.ofNat length) (.ofNat pad) =
        .ok (Source.excerpt source offset length pad)) ∧
    (∃ text : Nat → List Char,
      (∀ k ∈ shown source offset length pad, LineReads source.toList k (text k)) ∧
      Text.splitOn '\n' (Source.excerpt source offset length pad).toList =
        (shown source offset length pad).map (fun k =>
          row (toString (lastShown source offset length pad)).length
            (decide (firstLine source offset ≤ k ∧ k ≤ lastLine source offset length)) k (text k)) ++ [[]]) ∧
    (∀ k, 1 ≤ k →
      (k ≤ (Text.lines source.toList).length ↔ ∃ text, LineReads source.toList k text)) ∧
    LineNumber source offset (firstLine source offset) ∧
    LineNumber source (offset + (max length 1 - 1)) (lastLine source offset length) ∧
    firstLine source offset ∈ shown source offset length pad ∧
    firstLine source offset ≤ lastLine source offset length := by
  refine ⟨fun hsize hlength hpad => ?_, Source.splitOn_excerpt hoffset, fun k => Text.le_length_lines_iff,
    Source.lineNumber_lineColumn _ _, Source.lineNumber_lineColumn _ _, Source.firstLine_mem_shown hoffset,
    Source.firstLine_le_lastLine⟩
  have hexcerpt := overflowsWhen_excerpt hsize (.ofNat offset) (.ofNat length) (.ofNat pad)
  have hstart : (UInt64.ofNat offset).toNat = offset := toNat_ofNat (by omega)
  have hcontext : (UInt64.ofNat pad).toNat = pad := toNat_ofNat (by omega)
  rw [hstart, toNat_ofNat hlength, hcontext] at hexcerpt
  exact hexcerpt.eq (Nat.not_lt.2 hpad)

/-- The second line is marked for the last byte of its two-byte character. -/
theorem excerpt_rows_two_byte : ∃ (text : Nat → List Char) (answer : String),
    (∀ k ∈ [1, 2, 3], LineReads "a\r\né\nb".toList k (text k)) ∧
    excerpt "a\r\né\nb" 4 1 1 = .ok answer ∧
    Text.splitOn '\n' answer.toList =
      [row 1 false 1 (text 1), row 1 true 2 (text 2), row 1 false 3 (text 3), []] := by
  have hoffset : 4 < (Text.utf8 "a\r\né\nb").length := by decide
  have hlast : lastLine "a\r\né\nb" 4 1 + 1 ≤ max64 := by decide
  obtain ⟨hanswer, ⟨text, hreads, hsplit⟩, -⟩ := @excerpt_rows _ 4 1 1 hoffset
  exact ⟨text, _, hreads, hanswer (by decide) (by decide) hlast, hsplit⟩

/-- The one addition of an excerpt that can overflow is that of the pad to the number of the last line, and it
    does just if the sum has more than 64 bits. Where it does not, a larger pad shows all rows that a smaller one
    does. -/
theorem excerptRows_overflow_iff {p q : UInt64} (hsize : (Text.utf8 source).length < max64)
    (hoffset : offset.toNat < (Text.utf8 source).length) (hpq : p ≤ q) :
    let fewer := Source.excerptRows source offset.toNat len.toNat p.toNat
    let more := Source.excerptRows source offset.toNat len.toNat q.toNat
    let last := lastLine source offset.toNat len.toNat
    (excerpt source offset len q = .error (.fault .overflow) ↔ max64 < last + q.toNat) ∧
      (last + q.toNat ≤ max64 →
        excerptRows source offset len p = .ok fewer ∧ excerptRows source offset len q = .ok more ∧
          excerpt source offset len p = .ok (Source.excerptText fewer) ∧
          excerpt source offset len q = .ok (Source.excerptText more) ∧ ∀ entry ∈ fewer, entry ∈ more) := by
  intro fewer more last
  have hle : p.toNat ≤ q.toNat := UInt64.le_iff_toNat_le.1 hpq
  refine ⟨(overflowsWhen_excerpt hsize offset len q).fault_iff, fun hq => ?_⟩
  have hp : ¬ max64 < last + p.toNat := Nat.not_lt.2 (Nat.le_trans (Nat.add_le_add_left hle _) hq)
  refine ⟨(overflowsWhen_excerptRows hsize offset len p).eq hp,
    (overflowsWhen_excerptRows hsize offset len q).eq (Nat.not_lt.2 hq),
    (overflowsWhen_excerpt hsize offset len p).eq hp,
    (overflowsWhen_excerpt hsize offset len q).eq (Nat.not_lt.2 hq), fun entry hentry => ?_⟩
  exact Source.excerptRows_subset hoffset hle hentry

/-- The largest pads at which the second of three lines can be marked. -/
theorem excerptRows_overflow_iff_two_byte :
    excerpt "a\r\né\nb" 4 1 (last - 2) =
        .ok (Source.excerptText (Source.excerptRows "a\r\né\nb" 4 1 (max64 - 2))) ∧
      excerpt "a\r\né\nb" 4 1 (last - 1) = .error (.fault .overflow) := by
  have hsize : (Text.utf8 "a\r\né\nb").length < max64 := by decide
  obtain ⟨-, hsmall⟩ := @excerptRows_overflow_iff _ 4 1 0 (last - 2) hsize (by decide) (by decide)
  obtain ⟨hfault, -⟩ := @excerptRows_overflow_iff _ 4 1 0 (last - 1) hsize (by decide) (by decide)
  exact ⟨(hsmall (by decide)).2.2.2.1, hfault.2 (by decide)⟩

/-- More context can overflow, and show nothing of what less context shows. -/
theorem not_forall_excerptRows_subset :
    ¬ ∀ (source : String) (offset len p q : UInt64), offset.toNat < (Text.utf8 source).length → p ≤ q →
        ∃ fewer more, excerptRows source offset len p = .ok fewer ∧
          excerptRows source offset len q = .ok more ∧ ∀ entry ∈ fewer, entry ∈ more := by
  intro h
  obtain ⟨_, _, -, hmore, -⟩ := h "a\nb" 0 1 0 last (by decide) (by decide)
  have hfault : excerptRows "a\nb" 0 1 last = .error (.fault .overflow) :=
    (overflowsWhen_excerptRows (by decide) 0 1 last).fault (by decide)
  rw [hfault] at hmore
  cases hmore

end TxTrace.Machine

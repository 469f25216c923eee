import Mathlib.Data.List.Basic
import Mathlib.Data.List.Induction
import TxTrace.Source.Excerpt

/-!
Line and column tell the bytes of a text apart (`lineColumn_identifies`). A byte that is read puts the
column up, or begins the next line (`placeAfter_concat`), and of that all else follows.
-/

namespace TxTrace.Source

/-! ### Places byte by byte -/

/-- The place behind some bytes: line and column, counted from 1. -/
def placeAfter (before : Bytes) : Nat × Nat :=
  (before.count lineFeed + 1, (before.reverse.takeWhile (· != lineFeed)).length + 1)

theorem lineColumn_eq_placeAfter (source : String) (offset : Nat) :
    lineColumn source offset = placeAfter ((Text.utf8 source).take offset) := rfl

/-- Nothing changes past the end. -/
theorem lineColumn_min {source : String} {bound : Nat} (h : (Text.utf8 source).length ≤ bound)
    (offset : Nat) : lineColumn source (min offset bound) = lineColumn source offset := by
  have htake : (Text.utf8 source).take (min offset bound) = (Text.utf8 source).take offset := by
    rw [← List.take_take, List.take_of_length_le h]
  rw [lineColumn_eq_placeAfter, lineColumn_eq_placeAfter, htake]

theorem placeAfter_concat (before : Bytes) (b : UInt8) :
    placeAfter (before ++ [b]) =
      if b = lineFeed then ((placeAfter before).1 + 1, 1)
      else ((placeAfter before).1, (placeAfter before).2 + 1) := by
  rw [placeAfter, placeAfter, List.reverse_append, List.reverse_singleton, List.singleton_append,
    List.takeWhile_cons, List.count_append, List.count_singleton]
  by_cases hb : b = lineFeed
  · simp [hb]
  · simp [hb]

theorem placeAfter_lt_concat (before : Bytes) (b : UInt8) :
    Prod.Lex (· < ·) (· < ·) (placeAfter before) (placeAfter (before ++ [b])) := by
  rw [placeAfter_concat, Prod.lex_def]
  split
  · exact .inl (Nat.lt_succ_self _)
  · exact .inr ⟨rfl, Nat.lt_succ_self _⟩

theorem placeAfter_lt_append (before : Bytes) {more : Bytes} (hne : more ≠ []) :
    Prod.Lex (· < ·) (· < ·) (placeAfter before) (placeAfter (before ++ more)) := by
  induction more using List.reverseRecOn with
  | nil => exact absurd rfl hne
  | append_singleton more b ih =>
    have hlast := placeAfter_lt_concat (before ++ more) b
    rw [← List.append_assoc]
    rcases eq_or_ne more [] with rfl | hmore
    · rwa [List.append_nil] at hlast ⊢
    · have hbefore := ih hmore
      rw [Prod.lex_def] at hbefore hlast ⊢
      omega

/-! ### Starts of lines -/

/-- Where the lines of a text start: at its begin, and behind each line feed. -/
def lineStarts (bs : Bytes) : List Nat := 0 :: (bs.idxsOf lineFeed).map (· + 1)

theorem length_lineStarts (bs : Bytes) : (lineStarts bs).length = bs.count lineFeed + 1 := by
  rw [lineStarts, List.length_cons, List.length_map, List.length_idxsOf]

theorem lineStarts_append (bs more : Bytes) :
    lineStarts (bs ++ more) =
      lineStarts bs ++ (more.idxsOf lineFeed (0 + bs.length)).map (· + 1) := by
  rw [lineStarts, lineStarts, List.idxsOf_append, List.map_append, List.cons_append]

/-- The column counts from the start of the line. -/
theorem getElem?_lineStarts (bs : Bytes) :
    ∃ k start c, placeAfter bs = (k + 1, c + 1) ∧ (lineStarts bs)[k]? = some start ∧
      bs.length = start + c := by
  induction bs using List.reverseRecOn with
  | nil => exact ⟨0, 0, 0, rfl, rfl, rfl⟩
  | append_singleton bs b ih =>
    obtain ⟨k, start, c, hplace, hstart, hlen⟩ := ih
    have hk : k + 1 = (lineStarts bs).length := by
      rw [length_lineStarts]
      exact (congrArg Prod.fst hplace).symm
    rw [placeAfter_concat, hplace, lineStarts_append, List.length_append, List.length_singleton]
    by_cases hb : b = lineFeed
    · refine ⟨k + 1, bs.length + 1, 0, if_pos hb, ?_, rfl⟩
      rw [hk, List.getElem?_append_right (Nat.le_refl _), Nat.sub_self, hb]
      simp
    · refine ⟨k, start, c + 1, if_neg hb, ?_, by omega⟩
      rw [List.getElem?_append_left (by omega)]
      exact hstart

/-! ### Places of offsets -/

/-- Line and column identify a byte of a text: they grow with the offset up to the end of the text, where
    they stay, and the offset of the byte is the start of its line and the column, counted from 0. -/
theorem lineColumn_identifies (source : String) :
    (∀ {i j}, i < j → j ≤ (Text.utf8 source).length →
      Prod.Lex (· < ·) (· < ·) (lineColumn source i) (lineColumn source j)) ∧
    (∀ {i}, (Text.utf8 source).length ≤ i →
      lineColumn source i = lineColumn source (Text.utf8 source).length) ∧
    ∀ {i}, i ≤ (Text.utf8 source).length → ∃ k start c, lineColumn source i = (k + 1, c + 1) ∧
      (lineStarts (Text.utf8 source))[k]? = some start ∧ i = start + c := by
  refine ⟨fun {i j} hlt hle => ?_, fun {i} hle => ?_, fun {i} hle => ?_⟩
  · obtain ⟨more, hmore⟩ := List.take_prefix_take_left (l := Text.utf8 source) (Nat.le_of_lt hlt)
    have hne : more ≠ [] := by
      rintro rfl
      have hlen := congrArg List.length hmore
      rw [List.append_nil, List.length_take, List.length_take] at hlen
      omega
    rw [lineColumn_eq_placeAfter, lineColumn_eq_placeAfter, ← hmore]
    exact placeAfter_lt_append _ hne
  · rw [← lineColumn_min (Nat.le_refl _) i, Nat.min_eq_right hle]
  · obtain ⟨k, start, c, hplace, hstart, hlen⟩ := getElem?_lineStarts ((Text.utf8 source).take i)
    rw [List.length_take, Nat.min_eq_left hle] at hlen
    refine ⟨k, start, c, hplace, ?_, hlen⟩
    have hk : k < (lineStarts ((Text.utf8 source).take i)).length := (List.getElem?_eq_some_iff.1 hstart).1
    rw [← List.take_append_drop i (Text.utf8 source), lineStarts_append,
      List.getElem?_append_left hk]
    exact hstart

/-- Places in the five bytes of `a`, a line feed, the two bytes of `é`, and a line feed. -/
theorem lineColumn_identifies_two_byte :
    Prod.Lex (· < ·) (· < ·) (lineColumn "a\né\n" 1) (lineColumn "a\né\n" 2) ∧
    lineColumn "a\né\n" 9 = lineColumn "a\né\n" 5 ∧
    ∃ k start c, lineColumn "a\né\n" 3 = (k + 1, c + 1) ∧
      (lineStarts (Text.utf8 "a\né\n"))[k]? = some start ∧ 3 = start + c := by
  have hlen : (Text.utf8 "a\né\n").length = 5 := by decide
  have ⟨hlt, hpast, hstart⟩ := lineColumn_identifies "a\né\n"
  rw [hlen] at hlt hpast hstart
  exact ⟨hlt (by decide) (by decide), hpast (by decide), hstart (by decide)⟩

end TxTrace.Source

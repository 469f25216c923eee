import TxTrace.Proofs.Text.Utf8
import TxTrace.Text.Split

/-!
The lines of a text. A line ends at a line feed, or at the end of the text unless nothing is left
there (`LineAt`), and `lines` lists them by their numbers (`getElem?_lines_eq_some_iff`). Any byte is
in the line whose number counts the line feeds before it (`inLine_of_lt`).
-/

namespace TxTrace.Text

/-! ### Cutting at a separator -/

section splitOn

variable {sep : Char} {cs : List Char}

theorem splitFrom_append (h : sep ∉ cs) (current rest : List Char) :
    splitFrom sep current (cs ++ rest) = splitFrom sep (cs.reverse ++ current) rest := by
  induction cs generalizing current with
  | nil => rfl
  | cons c cs ih =>
    rw [List.mem_cons, not_or] at h
    rw [List.cons_append, splitFrom, if_neg (Ne.symm h.1), ih h.2, List.reverse_cons, List.append_assoc,
      List.singleton_append]

theorem splitOn_of_not_mem (h : sep ∉ cs) : splitOn sep cs = [cs] := by
  have hsplit := splitFrom_append h [] []
  rw [List.append_nil, List.append_nil] at hsplit
  rw [splitOn, hsplit, splitFrom, List.reverse_reverse]

theorem splitOn_append_cons (h : sep ∉ cs) (rest : List Char) :
    splitOn sep (cs ++ sep :: rest) = cs :: splitOn sep rest := by
  rw [splitOn, splitFrom_append h, List.append_nil, splitFrom, if_pos rfl, List.reverse_reverse]
  rfl

theorem splitFrom_ne_nil (sep : Char) (current cs : List Char) : splitFrom sep current cs ≠ [] := by
  induction cs generalizing current with
  | nil => simp [splitFrom]
  | cons c cs ih =>
    rw [splitFrom]
    split
    · simp
    · exact ih _

/-- Parts that are each ended by the separator are what the text is cut into, with nothing after them. -/
theorem splitOn_flatMap {parts : List (List Char)} (h : ∀ part ∈ parts, sep ∉ part) :
    splitOn sep (parts.flatMap (· ++ [sep])) = parts ++ [[]] := by
  induction parts with
  | nil => rfl
  | cons part parts ih =>
    rw [List.flatMap_cons, List.append_assoc, List.singleton_append,
      splitOn_append_cons (h part List.mem_cons_self), ih fun p hp => h p (List.mem_cons_of_mem _ hp),
      List.cons_append]

end splitOn

/-! ### Lines by their numbers -/

variable {cs before raw after : List Char} {number : Nat}

theorem lines_append_cons (h : '\n' ∉ raw) (rest : List Char) :
    lines (raw ++ '\n' :: rest) = dropReturn raw :: lines rest := by
  have hne : splitOn '\n' rest ≠ [] := splitFrom_ne_nil '\n' [] rest
  obtain ⟨part, parts, heq⟩ := List.exists_cons_of_ne_nil hne
  rw [lines, lines, splitOn_append_cons h, heq]
  rfl

theorem lines_of_not_mem (h : '\n' ∉ raw) (hne : raw ≠ []) : lines raw = [raw] := by
  rw [lines, splitOn_of_not_mem h]
  simp [hne]

theorem mem_of_mem_dropReturn {c : Char} {line : List Char} (h : c ∈ dropReturn line) : c ∈ line := by
  unfold dropReturn at h
  split at h
  · next rest heq =>
    rw [← List.mem_reverse, heq]
    exact List.mem_cons_of_mem _ (List.mem_reverse.1 h)
  · exact h

/-- A text is what follows its last line feed, or a first line before a shorter text. -/
@[elab_as_elim]
theorem line_induction {motive : List Char → Prop} (last : ∀ cs, '\n' ∉ cs → motive cs)
    (cons : ∀ first rest, '\n' ∉ first → motive rest → motive (first ++ '\n' :: rest))
    (cs : List Char) : motive cs := by
  by_cases hmem : '\n' ∈ cs
  · obtain ⟨first, rest, rfl, hfirst⟩ := List.eq_append_cons_of_mem hmem
    exact cons first rest hfirst (line_induction last cons rest)
  · exact last cs hmem
termination_by cs.length
decreasing_by simp_all; omega

/-- The line of a text with some number: its characters are `raw`, without the line feed that ends
    it. -/
structure LineAt (cs : List Char) (number : Nat) (before raw after : List Char) : Prop where
  eq_append : cs = before ++ (raw ++ after)
  before_ends : before = [] ∨ before.getLast? = some '\n'
  number_eq : number = before.count '\n' + 1
  not_mem : '\n' ∉ raw
  after_begins : after = [] ∨ after.head? = some '\n'
  nonempty : raw ++ after ≠ []

/-- What a line reads as: a carriage return before its line feed is no part of it. -/
def lineText (raw after : List Char) : List Char := if after = [] then raw else dropReturn raw

/-- The line of a text with some number reads as `text`. -/
def LineReads (cs : List Char) (number : Nat) (text : List Char) : Prop :=
  ∃ before raw after, LineAt cs number before raw after ∧ text = lineText raw after

theorem LineReads.not_mem {text : List Char} (h : LineReads cs number text) : '\n' ∉ text := by
  obtain ⟨before, raw, after, hline, rfl⟩ := h
  rw [lineText]
  split
  · exact hline.not_mem
  · exact mt mem_of_mem_dropReturn hline.not_mem

/-- The first line. -/
theorem lineAt_one (hraw : '\n' ∉ raw) (hafter : after = [] ∨ after.head? = some '\n')
    (hne : raw ++ after ≠ []) : LineAt (raw ++ after) 1 [] raw after :=
  ⟨rfl, .inl rfl, rfl, hraw, hafter, hne⟩

namespace LineAt

/-- A line before the others puts their numbers up. -/
theorem cons {first rest : List Char} (hfirst : '\n' ∉ first) (h : LineAt rest number before raw after) :
    LineAt (first ++ '\n' :: rest) (number + 1) (first ++ '\n' :: before) raw after where
  eq_append := by rw [h.eq_append, List.append_assoc, List.cons_append]
  before_ends := by
    rw [List.getLast?_append, List.getLast?_cons]
    rcases h.before_ends with rfl | hlast
    · exact .inr rfl
    · rw [hlast]
      exact .inr rfl
  number_eq := by
    rw [h.number_eq, List.count_append, List.count_eq_zero.2 hfirst, List.count_cons_self]
    omega
  not_mem := h.not_mem
  after_begins := h.after_begins
  nonempty := h.nonempty

/-- A line after the first is a line of what follows the first. -/
theorem tail {first : List Char} (hfirst : '\n' ∉ first)
    (h : LineAt cs number (first ++ '\n' :: before) raw after) :
    LineAt (before ++ (raw ++ after)) (number - 1) before raw after where
  eq_append := rfl
  before_ends := by
    have hlast := h.before_ends.resolve_left (by simp)
    rw [List.getLast?_append, List.getLast?_cons] at hlast
    cases hbefore : before.getLast? with
    | none => exact .inl (List.getLast?_eq_none_iff.1 hbefore)
    | some c =>
      rw [hbefore] at hlast
      exact .inr hlast
  number_eq := by
    have hcount := h.number_eq
    rw [List.count_append, List.count_eq_zero.2 hfirst, List.count_cons_self] at hcount
    omega
  not_mem := h.not_mem
  after_begins := h.after_begins
  nonempty := h.nonempty

theorem head?_lines (h : LineAt cs number [] raw after) :
    (lines cs).head? = some (lineText raw after) := by
  rw [h.eq_append, List.nil_append, lineText]
  rcases h.after_begins with rfl | hhead
  · have hne := h.nonempty
    rw [List.append_nil] at hne
    rw [List.append_nil, if_pos rfl, lines_of_not_mem h.not_mem hne]
    rfl
  · obtain ⟨rest, rfl⟩ := List.head?_eq_some_iff.1 hhead
    rw [if_neg (by simp), lines_append_cons h.not_mem]
    rfl

theorem getElem?_lines (h : LineAt cs number before raw after) :
    (lines cs)[number - 1]? = some (lineText raw after) := by
  induction before using line_induction generalizing cs number with
  | last before hmem =>
    obtain rfl : before = [] :=
      h.before_ends.resolve_right fun hlast => hmem (List.mem_of_getLast? hlast)
    have hnumber : number = 1 := h.number_eq
    rw [hnumber, ← h.head?_lines, List.head?_eq_getElem?]
  | cons first before hfirst ih =>
    have hnumber : number - 1 = (number - 1 - 1) + 1 := by
      have hcount := h.number_eq
      rw [List.count_append, List.count_cons_self] at hcount
      omega
    rw [h.eq_append, List.append_assoc, List.cons_append, lines_append_cons hfirst, hnumber,
      List.getElem?_cons_succ]
    exact ih (h.tail hfirst)

end LineAt

theorem lineReads_of_getElem?_lines {text : List Char} {k : Nat} (h : (lines cs)[k]? = some text) :
    LineReads cs (k + 1) text := by
  induction cs using line_induction generalizing k with
  | last cs hmem =>
    have hne : cs ≠ [] := by
      rintro rfl
      cases h
    rw [lines_of_not_mem hmem hne] at h
    cases k with
    | zero =>
      obtain rfl : cs = text := Option.some.inj h
      have hline := lineAt_one hmem (.inl rfl) (by simpa using hne)
      rw [List.append_nil] at hline
      exact ⟨[], cs, [], hline, (if_pos rfl).symm⟩
    | succ k => cases h
  | cons first rest hfirst ih =>
    rw [lines_append_cons hfirst] at h
    cases k with
    | zero =>
      refine ⟨[], first, '\n' :: rest, lineAt_one hfirst (.inr rfl) (by simp), ?_⟩
      rw [lineText, if_neg (by simp)]
      exact (Option.some.inj h).symm
    | succ k =>
      obtain ⟨before, raw, after, hline, htext⟩ := ih h
      exact ⟨first ++ '\n' :: before, raw, after, hline.cons hfirst, htext⟩

/-- Exactly the lines of a text are listed, each under its number. -/
theorem getElem?_lines_eq_some_iff {text : List Char} {k : Nat} :
    (lines cs)[k]? = some text ↔ LineReads cs (k + 1) text := by
  refine ⟨lineReads_of_getElem?_lines, ?_⟩
  rintro ⟨before, raw, after, hline, rfl⟩
  exact hline.getElem?_lines

/-- A text has the lines up to the number that are listed, and no more. -/
theorem le_length_lines_iff {k : Nat} (hpos : 1 ≤ k) :
    k ≤ (lines cs).length ↔ ∃ text, LineReads cs k text := by
  obtain ⟨k, rfl⟩ := Nat.exists_eq_add_of_le' hpos
  simp only [← getElem?_lines_eq_some_iff]
  constructor
  · exact fun hle => ⟨_, List.getElem?_eq_getElem hle⟩
  · rintro ⟨text, htext⟩
    exact (List.getElem?_eq_some_iff.1 htext).1

/-! ### Lines by their bytes -/

/-- The bytes of some characters. -/
def encode (cs : List Char) : Bytes := cs.flatMap String.utf8EncodeChar

theorem encode_append (cs ds : List Char) : encode (cs ++ ds) = encode cs ++ encode ds :=
  List.flatMap_append

theorem encode_newline_cons (cs : List Char) : encode ('\n' :: cs) = 10 :: encode cs := rfl

theorem not_mem_encode (h : '\n' ∉ cs) : 10 ∉ encode cs := by
  intro hmem
  obtain ⟨c, hc, hbyte⟩ := List.mem_flatMap.1 hmem
  have hval := toNat_val_of_mem_utf8EncodeChar hbyte (by decide)
  obtain rfl : c = '\n' := Char.ext (UInt32.toNat_inj.1 hval)
  exact h hc

theorem count_encode (cs : List Char) : (encode cs).count 10 = cs.count '\n' := by
  induction cs using line_induction with
  | last cs hmem => rw [List.count_eq_zero.2 hmem, List.count_eq_zero.2 (not_mem_encode hmem)]
  | cons first rest hfirst ih =>
    rw [encode_append, encode_newline_cons, List.count_append, List.count_cons_self, ih,
      List.count_append, List.count_cons_self, List.count_eq_zero.2 hfirst,
      List.count_eq_zero.2 (not_mem_encode hfirst)]

/-- The byte of a text at `offset` is in its line `number`, to which its line feed belongs. -/
def InLine (cs : List Char) (number offset : Nat) : Prop :=
  ∃ before raw after, LineAt cs number before raw after ∧ (encode before).length ≤ offset ∧
    offset < (encode (before ++ (raw ++ after.take 1))).length

theorem InLine.cons {first rest : List Char} {offset : Nat} (hfirst : '\n' ∉ first)
    (h : InLine rest number offset) :
    InLine (first ++ '\n' :: rest) (number + 1) ((encode first).length + 1 + offset) := by
  obtain ⟨before, raw, after, hline, hlow, hhigh⟩ := h
  refine ⟨first ++ '\n' :: before, raw, after, hline.cons hfirst, ?_, ?_⟩
  · rw [encode_append, encode_newline_cons, List.length_append, List.length_cons]
    omega
  · rw [List.append_assoc, List.cons_append, encode_append, encode_newline_cons, List.length_append,
      List.length_cons]
    omega

theorem inLine_one {offset : Nat} (hraw : '\n' ∉ raw) (hafter : after = [] ∨ after.head? = some '\n')
    (h : offset < (encode (raw ++ after.take 1)).length) : InLine (raw ++ after) 1 offset := by
  have hne : raw ++ after ≠ [] := by
    intro hnil
    obtain ⟨rfl, rfl⟩ := List.append_eq_nil_iff.1 hnil
    exact Nat.not_lt_zero _ h
  exact ⟨[], raw, after, lineAt_one hraw hafter hne, Nat.zero_le _, h⟩

/-- The number of the line that a byte is in counts the line feeds before the byte. -/
theorem inLine_of_lt {offset : Nat} (h : offset < (encode cs).length) :
    InLine cs (((encode cs).take offset).count 10 + 1) offset := by
  induction cs using line_induction generalizing offset with
  | last cs hmem =>
    rw [List.count_eq_zero.2 (mt List.mem_of_mem_take (not_mem_encode hmem))]
    have hline := inLine_one hmem (.inl rfl) (by simpa using h)
    rw [List.append_nil] at hline
    exact hline
  | cons first rest hfirst ih =>
    have hten : 10 ∉ encode first := not_mem_encode hfirst
    rw [encode_append, encode_newline_cons] at h ⊢
    by_cases hle : offset ≤ (encode first).length
    · -- the byte is in the first line or ends it
      rw [List.take_append_of_le_length hle, List.count_eq_zero.2 (mt List.mem_of_mem_take hten)]
      refine inLine_one hfirst (.inr rfl) ?_
      rw [encode_append, List.length_append]
      exact Nat.lt_succ_of_le hle
    · obtain ⟨skipped, rfl⟩ := Nat.exists_eq_add_of_le (Nat.lt_of_not_le hle)
      have htake : ((encode first ++ 10 :: encode rest).take ((encode first).length + 1 + skipped)).count
          10 = ((encode rest).take skipped).count 10 + 1 := by
        rw [Nat.add_assoc, List.take_length_add_append, Nat.add_comm 1, List.take_succ_cons,
          List.count_append, List.count_eq_zero.2 hten, List.count_cons_self, Nat.zero_add]
      rw [List.length_append, List.length_cons] at h
      have hrest := ih (show skipped < (encode rest).length by omega)
      rw [Nat.succ_eq_add_one, htake]
      exact hrest.cons hfirst

end TxTrace.Text

import Mathlib.Data.List.Chain
import Mathlib.Data.List.TakeWhile
import Mathlib.Logic.Function.Iterate
import Mathlib.Order.Monotone.Basic
import TxTrace.Proofs.Text.Numeral
import TxTrace.Result
import TxTrace.Source.Map

/-!
Source maps, instruction by instruction. The text of a map says of each instruction where it comes
from, unwritten fields being those of the items before (`Expands`). Joining ranges and searching
among them is only a faster way to look this up (`Map.origin_ofText`), and a map is refused exactly
for its first field that is no number.
-/

namespace TxTrace.Source

/-! ### Instructions -/

/-- Where the instruction at `pc` ends. It takes in the data behind it. -/
def instructionEnd (code : Bytes) (pc : Nat) : Nat := pc + 1 + pushSize (code.getD pc 0)

/-- Where the `i`-th instruction stands: the first one at 0, each other one where the one before it
    ends. -/
def instructionStart (code : Bytes) (i : Nat) : Nat := (instructionEnd code)^[i] 0

/-- The code has an `i`-th instruction. -/
def HasInstruction (code : Bytes) (i : Nat) : Prop := instructionStart code i < code.length

instance (code : Bytes) (i : Nat) : Decidable (HasInstruction code i) :=
  inferInstanceAs (Decidable (_ < _))

/-- The position `pc` lies in the `i`-th instruction. -/
def InInstruction (code : Bytes) (i pc : Nat) : Prop :=
  HasInstruction code i ∧ instructionStart code i ≤ pc ∧ pc < instructionStart code (i + 1)

theorem instructionStart_succ (code : Bytes) (i : Nat) :
    instructionStart code (i + 1) = instructionEnd code (instructionStart code i) :=
  Function.iterate_succ_apply' _ _ _

theorem lt_instructionEnd (code : Bytes) (pc : Nat) : pc < instructionEnd code pc := by
  unfold instructionEnd
  omega

theorem instructionStart_lt_succ (code : Bytes) (i : Nat) :
    instructionStart code i < instructionStart code (i + 1) := by
  rw [instructionStart_succ]
  exact lt_instructionEnd code _

theorem instructionStart_strictMono (code : Bytes) : StrictMono (instructionStart code) :=
  strictMono_nat_of_lt_succ (instructionStart_lt_succ code)

/-- Data is passed over. -/
theorem instructionsFrom_skip (pc skip : Nat) (code : Bytes) :
    instructionsFrom pc skip code = instructionsFrom (pc + skip) 0 (code.drop skip) := by
  induction skip generalizing pc code with
  | zero => rfl
  | succ skip ih =>
    cases code with
    | nil => rfl
    | cons b code =>
      rw [instructionsFrom, ih, List.drop_succ_cons]
      congr 1
      omega

theorem instructionsFrom_drop_of_lt {code : Bytes} {pc : Nat} (h : pc < code.length) :
    instructionsFrom pc 0 (code.drop pc) =
      (pc, instructionEnd code pc - pc) ::
        instructionsFrom (instructionEnd code pc) 0 (code.drop (instructionEnd code pc)) := by
  have hend : pc + 1 + pushSize code[pc] = instructionEnd code pc := by
    rw [instructionEnd, List.getD_eq_getElem?_getD, List.getElem?_eq_getElem h, Option.getD_some]
  have hsize : 1 + pushSize code[pc] = instructionEnd code pc - pc := by omega
  rw [List.drop_eq_getElem_cons h, instructionsFrom, instructionsFrom_skip, List.drop_drop, hend,
    hsize]

/-- Reading the instructions from a position on visits the places where they stand. -/
theorem getElem?_instructionsFrom (code : Bytes) (i pc : Nat) :
    (instructionsFrom pc 0 (code.drop pc))[i]? =
      let start := (instructionEnd code)^[i] pc
      if start < code.length then some (start, instructionEnd code start - start) else none := by
  induction i generalizing pc with
  | zero =>
    by_cases h : pc < code.length
    · simp [instructionsFrom_drop_of_lt h, h]
    · simp [List.drop_eq_nil_of_le (Nat.le_of_not_lt h), instructionsFrom, h]
  | succ i ih =>
    rw [Function.iterate_succ_apply]
    by_cases h : pc < code.length
    · rw [instructionsFrom_drop_of_lt h, List.getElem?_cons_succ, ih]
    · -- past the end there are no instructions, and the positions stay there
      have hge : ∀ j, pc ≤ (instructionEnd code)^[j] (instructionEnd code pc) := by
        intro j
        rw [← Function.iterate_succ_apply]
        induction j.succ with
        | zero => exact Nat.le_refl _
        | succ k ihk =>
          rw [Function.iterate_succ_apply']
          exact Nat.le_trans ihk (Nat.le_of_lt (lt_instructionEnd code _))
      have hnone : ¬ (instructionEnd code)^[i] (instructionEnd code pc) < code.length := by
        have := hge i
        omega
      rw [List.drop_eq_nil_of_le (Nat.le_of_not_lt h)]
      simp [instructionsFrom, hnone]

theorem getElem?_instructions (code : Bytes) (i : Nat) :
    (instructions code)[i]? =
      if HasInstruction code i then
        some (instructionStart code i, instructionStart code (i + 1) - instructionStart code i)
      else none := by
  have h := getElem?_instructionsFrom code i 0
  rw [List.drop_zero] at h
  rw [instructions, h, instructionStart_succ]
  rfl

/-! ### Items -/

/-- The `k`-th field of an item, if it is written: an empty one is not. -/
def writtenField (k : Nat) (item : List Char) : Option (List Char) :=
  (Text.splitOn ':' item)[k]?.filter (· ≠ [])

/-- The `k`-th field that stands after some items: that of the last one which writes it. -/
def inheritedField (k : Nat) (items : List (List Char)) : Option (List Char) :=
  (items.filterMap (writtenField k)).getLast?

/-- The number that a field stands for, -1 where it was never written. -/
def FieldNumber (n : Int) : (field : Option (List Char)) → Prop
  | none => n = -1
  | some text => Text.Numeral64 text n

/-- What stands after some items. -/
structure Inherits (items : List (List Char)) (item : Item) : Prop where
  start : FieldNumber item.start (inheritedField 0 items)
  length : FieldNumber item.length (inheritedField 1 items)
  file : FieldNumber item.file (inheritedField 2 items)
  jump : item.jump = ((inheritedField 3 items).map Jump.ofMarker).getD .regular

/-- One of the three numeric fields is written and no number of 64 bits. -/
def IllWritten (item : List Char) : Prop :=
  ∃ k < 3, ∃ field, writtenField k item = some field ∧ ∀ n, ¬ Text.Numeral64 field n

theorem inheritedField_concat (k : Nat) (items : List (List Char)) (item : List Char) :
    inheritedField k (items ++ [item]) = (writtenField k item).or (inheritedField k items) := by
  rw [inheritedField, List.filterMap_append, List.getLast?_append, inheritedField]
  cases h : writtenField k item <;> simp [h]

theorem inherits_nil : Inherits [] .initial := ⟨rfl, rfl, rfl, rfl⟩

namespace Item

variable {index : Nat} {previous : Item} {items : List (List Char)} {text : List Char}

theorem number_of_unwritten {k : Nat} (h : writtenField k text = none) (n : Int) :
    number index n (Text.splitOn ':' text)[k]? = .ok n := by
  unfold writtenField at h
  cases hfield : (Text.splitOn ':' text)[k]? with
  | none => rfl
  | some field =>
    cases field with
    | nil => rfl
    | cons c cs => simp [hfield] at h

theorem number_of_written {k : Nat} {field : List Char} (h : writtenField k text = some field)
    (n : Int) :
    number index n (Text.splitOn ':' text)[k]? =
      (Text.readI64 field).mapError fun cause => ⟨index, String.ofList field, cause⟩ := by
  obtain ⟨hfield, hne⟩ := Option.filter_eq_some_iff.1 h
  rw [hfield]
  cases field with
  | nil => simp at hne
  | cons c cs => rfl

/-- A numeric field is read as the number that stands after its item. -/
theorem fieldNumber_of_number {k : Nat} {n m : Int} (hn : FieldNumber n (inheritedField k items))
    (hm : number index n (Text.splitOn ':' text)[k]? = .ok m) :
    FieldNumber m (inheritedField k (items ++ [text])) := by
  rw [inheritedField_concat]
  cases hfield : writtenField k text with
  | none =>
    rw [number_of_unwritten hfield] at hm
    obtain rfl := Except.ok.inj hm
    exact hn
  | some field =>
    rw [number_of_written hfield] at hm
    cases hread : Text.readI64 field with
    | error => simp [hread, Except.mapError] at hm
    | ok m' =>
      rw [hread] at hm
      obtain rfl := Except.ok.inj hm
      exact Text.readI64_eq_ok_iff.1 hread

/-- A numeric field is refused under the index of its item, if it is written and no number. -/
theorem number_eq_error {k : Nat} {n : Int} {e : MapError}
    (h : number index n (Text.splitOn ':' text)[k]? = .error e) :
    e.index = index ∧ ∃ field, writtenField k text = some field ∧ ∀ m, ¬ Text.Numeral64 field m := by
  cases hfield : writtenField k text with
  | none => simp [number_of_unwritten hfield] at h
  | some field =>
    rw [number_of_written hfield] at h
    cases hread : Text.readI64 field with
    | ok m => simp [hread, Except.mapError] at h
    | error cause =>
      rw [hread] at h
      obtain rfl := Except.error.inj h
      refine ⟨rfl, field, rfl, fun m hm => ?_⟩
      rw [Text.readI64_eq_ok_iff.2 hm] at hread
      cases hread

/-- What is read of an item stands after it. -/
theorem inherits_of_read {item : Item} (hprevious : Inherits items previous)
    (h : read index previous text = .ok item) : Inherits (items ++ [text]) item := by
  simp only [read, bind_eq_ok_iff] at h
  obtain ⟨start, hstart, length, hlength, file, hfile, hitem⟩ := h
  obtain rfl := Except.ok.inj hitem
  refine ⟨fieldNumber_of_number hprevious.start hstart,
    fieldNumber_of_number hprevious.length hlength, fieldNumber_of_number hprevious.file hfile, ?_⟩
  rw [inheritedField_concat]
  show jumpOf previous.jump (Text.splitOn ':' text)[3]? = _
  unfold writtenField
  cases (Text.splitOn ':' text)[3]? with
  | none => exact hprevious.jump
  | some marker =>
    cases marker with
    | nil => exact hprevious.jump
    | cons c cs => rfl

theorem read_eq_error {e : MapError} (h : read index previous text = .error e) :
    e.index = index ∧ IllWritten text := by
  simp only [read, bind_eq_error_iff] at h
  rcases h with h | ⟨start, _, h | ⟨length, _, h | ⟨file, _, h⟩⟩⟩
  · obtain ⟨hindex, hfield⟩ := number_eq_error h
    exact ⟨hindex, 0, by decide, hfield⟩
  · obtain ⟨hindex, hfield⟩ := number_eq_error h
    exact ⟨hindex, 1, by decide, hfield⟩
  · obtain ⟨hindex, hfield⟩ := number_eq_error h
    exact ⟨hindex, 2, by decide, hfield⟩
  · cases h

end Item

/-- After an item there stand numbers only if it is well written. -/
theorem Inherits.not_illWritten {items : List (List Char)} {text : List Char} {item : Item}
    (h : Inherits (items ++ [text]) item) : ¬ IllWritten text := by
  have hnumber {k : Nat} {n : Int} {field : List Char}
      (hn : FieldNumber n (inheritedField k (items ++ [text])))
      (hfield : writtenField k text = some field) : Text.Numeral64 field n := by
    rw [inheritedField_concat, hfield] at hn
    exact hn
  rintro ⟨k, hk, field, hfield, hill⟩
  match k, hk with
  | 0, _ => exact hill _ (hnumber h.start hfield)
  | 1, _ => exact hill _ (hnumber h.length hfield)
  | 2, _ => exact hill _ (hnumber h.file hfield)

namespace Item

/-- Each item is read as what stands after it. -/
theorem inherits_of_readAll {index : Nat} {previous : Item} {before texts : List (List Char)}
    {items : List Item} (hprevious : Inherits before previous)
    (h : readAll index previous texts = .ok items) :
    items.length = texts.length ∧
      ∀ {i item}, items[i]? = some item → Inherits (before ++ texts.take (i + 1)) item := by
  induction texts generalizing index previous before items with
  | nil =>
    obtain rfl := Except.ok.inj h
    exact ⟨rfl, by simp⟩
  | cons text texts ih =>
    simp only [readAll, bind_eq_ok_iff] at h
    obtain ⟨item, hitem, rest, hrest, hitems⟩ := h
    obtain rfl := Except.ok.inj hitems
    have hinherits := inherits_of_read hprevious hitem
    obtain ⟨hlength, hinner⟩ := ih hinherits hrest
    refine ⟨by simp [hlength], ?_⟩
    intro i item' hi
    cases i with
    | zero =>
      obtain rfl := Option.some.inj hi
      simpa using hinherits
    | succ i =>
      have hi' := hinner hi
      rwa [List.append_assoc, List.singleton_append, ← List.take_succ_cons] at hi'

theorem not_illWritten_of_readAll {index : Nat} {previous : Item} {before texts : List (List Char)}
    {items : List Item} (hprevious : Inherits before previous)
    (h : readAll index previous texts = .ok items) {i : Nat} {text : List Char}
    (hi : texts[i]? = some text) : ¬ IllWritten text := by
  obtain ⟨hlength, hinherits⟩ := inherits_of_readAll hprevious h
  obtain ⟨hlt, rfl⟩ := List.getElem?_eq_some_iff.1 hi
  have hitem := hinherits (List.getElem?_eq_getElem (hlength ▸ hlt))
  rw [List.take_succ_eq_append_getElem hlt, ← List.append_assoc] at hitem
  exact hitem.not_illWritten

/-- Reading stops at the first item that is ill written. -/
theorem readAll_eq_error {index : Nat} {previous : Item} {before texts : List (List Char)}
    {e : MapError} (hprevious : Inherits before previous)
    (h : readAll index previous texts = .error e) :
    ∃ k text, e.index = index + k ∧ texts[k]? = some text ∧ IllWritten text ∧
      ∀ j < k, ∀ text', texts[j]? = some text' → ¬ IllWritten text' := by
  induction texts generalizing index previous before with
  | nil => cases h
  | cons text texts ih =>
    simp only [readAll, bind_eq_error_iff] at h
    rcases h with h | ⟨item, hitem, h | ⟨_, _, h⟩⟩
    · obtain ⟨hindex, hill⟩ := read_eq_error h
      exact ⟨0, text, hindex, rfl, hill, by simp⟩
    · have hinherits := inherits_of_read hprevious hitem
      obtain ⟨k, text', hindex, hk, hill, hfirst⟩ := ih hinherits h
      refine ⟨k + 1, text', by omega, hk, hill, ?_⟩
      intro j hj text'' hj'
      cases j with
      | zero =>
        obtain rfl := Option.some.inj hj'
        exact hinherits.not_illWritten
      | succ j => exact hfirst j (by omega) text'' hj'
    · cases h

end Item

/-! ### Ranges -/

/-- Where code comes from: a range of a source, and its jump. -/
structure Origin where
  /-- The position of the file in the list of sources. -/
  file : Nat
  offset : Nat
  length : Nat
  jump : Jump

def Range.origin (r : Range) : Origin := ⟨r.file, r.offset, r.length, r.jump⟩

/-- Where the instruction of an item comes from: from nowhere, unless all numbers are natural. -/
def Item.origin? (item : Item) : Option Origin :=
  if 0 ≤ item.start ∧ 0 ≤ item.length ∧ 0 ≤ item.file then
    some ⟨item.file.toNat, item.start.toNat, item.length.toNat, item.jump⟩
  else none

theorem Item.range?_eq_some_iff {item : Item} {pc size : Nat} {r : Range} :
    item.range? pc size = some r ↔
      r.first = pc ∧ r.stop = pc + size ∧ item.origin? = some r.origin := by
  unfold range? origin?
  split
  · rw [Option.some.injEq, Option.some.injEq]
    constructor
    · rintro rfl
      exact ⟨rfl, rfl, rfl⟩
    · rintro ⟨rfl, hstop, horigin⟩
      obtain ⟨hfile, hoffset, hlength, hjump⟩ := Origin.mk.inj horigin
      rw [← hstop, hfile, hoffset, hlength, hjump]
  · simp

/-- Ranges in their order, each of which takes in some code and no two the same. -/
structure Separated (ranges : List Range) : Prop where
  nonempty : ∀ r ∈ ranges, r.first < r.stop
  pairwise : ranges.Pairwise (·.stop ≤ ·.first)

/-- One of the ranges takes in the position `pc`. -/
def Holds (ranges : List Range) (pc : Nat) (o : Origin) : Prop :=
  ∃ r ∈ ranges, r.first ≤ pc ∧ pc < r.stop ∧ r.origin = o

theorem Separated.tail {r : Range} {rs : List Range} (h : Separated (r :: rs)) : Separated rs :=
  ⟨fun r hr => h.nonempty r (List.mem_cons_of_mem _ hr), h.pairwise.of_cons⟩

namespace Range

theorem continues_iff {a b : Range} :
    a.continues b ↔ a.stop = b.first ∧ a.origin = b.origin := by
  simp only [continues, Bool.and_eq_true, beq_iff_eq, origin, Origin.mk.injEq, and_assoc]

/-- Joining leaves the beginning of the first range. -/
theorem joinFrom_eq_cons (current : Range) (rs : List Range) :
    ∃ r rest, joinFrom current rs = r :: rest ∧ r.first = current.first ∧
      r.origin = current.origin := by
  fun_induction joinFrom current rs with
  | case1 current => exact ⟨current, [], rfl, rfl, rfl⟩
  | case2 current r rs hcontinues ih => exact ih
  | case3 current r rs hcontinues ih => exact ⟨current, _, rfl, rfl, rfl⟩

/-- A range and the one that continues it can stand as one. -/
theorem separated_extend {current r : Range} {rs : List Range} (h : Separated (current :: r :: rs))
    (hstop : current.stop = r.first) : Separated ({ current with stop := r.stop } :: rs) := by
  have hcurrent := h.nonempty current List.mem_cons_self
  have hr := h.tail.nonempty r List.mem_cons_self
  constructor
  · intro x hx
    rcases List.mem_cons.1 hx with rfl | hx
    · show current.first < r.stop
      omega
    · exact h.tail.tail.nonempty x hx
  · exact List.pairwise_cons.2 ⟨(List.pairwise_cons.1 h.tail.pairwise).1, h.tail.tail.pairwise⟩

theorem separated_joinFrom {current : Range} {rs : List Range} (h : Separated (current :: rs)) :
    Separated (joinFrom current rs) := by
  fun_induction joinFrom current rs with
  | case1 current => exact h
  | case2 current r rs hcontinues ih => exact ih (separated_extend h (continues_iff.1 hcontinues).1)
  | case3 current r rs hcontinues ih =>
    have hinner := ih h.tail
    have hle : current.stop ≤ r.first := (List.pairwise_cons.1 h.pairwise).1 r List.mem_cons_self
    obtain ⟨r', rest, hjoin, hfirst, _⟩ := joinFrom_eq_cons r rs
    rw [hjoin] at hinner ⊢
    constructor
    · intro x hx
      rcases List.mem_cons.1 hx with rfl | hx
      · exact h.nonempty _ List.mem_cons_self
      · exact hinner.nonempty x hx
    · refine List.pairwise_cons.2 ⟨fun x hx => ?_, hinner.pairwise⟩
      rcases List.mem_cons.1 hx with rfl | hx
      · omega
      · have hr' := hinner.nonempty r' List.mem_cons_self
        have hx' := (List.pairwise_cons.1 hinner.pairwise).1 x hx
        omega

/-- Joined ranges take in the same positions, each from the same origin. -/
theorem holds_joinFrom {current : Range} {rs : List Range} (h : Separated (current :: rs))
    (pc : Nat) (o : Origin) : Holds (joinFrom current rs) pc o ↔ Holds (current :: rs) pc o := by
  fun_induction joinFrom current rs with
  | case1 current => rfl
  | case2 current r rs hcontinues ih =>
    obtain ⟨hstop, horigin⟩ := continues_iff.1 hcontinues
    have hcurrent := h.nonempty current List.mem_cons_self
    have hr := h.tail.nonempty r List.mem_cons_self
    have hextend : (({ current with stop := r.stop } : Range).origin) = current.origin := rfl
    rw [ih (separated_extend h hstop)]
    simp only [Holds, List.mem_cons, exists_eq_or_imp, hextend]
    rw [← or_assoc]
    refine or_congr_left ?_
    rw [← horigin]
    constructor
    · rintro ⟨hle, hlt, ho⟩
      by_cases hpc : pc < current.stop
      · exact .inl ⟨hle, hpc, ho⟩
      · exact .inr ⟨by omega, hlt, ho⟩
    · rintro (⟨hle, hlt, ho⟩ | ⟨hle, hlt, ho⟩)
      · exact ⟨hle, by omega, ho⟩
      · exact ⟨by omega, hlt, ho⟩
  | case3 current r rs hcontinues ih =>
    simp only [Holds, List.mem_cons, exists_eq_or_imp] at ih ⊢
    rw [ih h.tail]

/-- Of joined neighbours none continues the other. -/
theorem isChain_joinFrom (current : Range) (rs : List Range) :
    (joinFrom current rs).IsChain fun a b => ¬ (a.stop = b.first ∧ a.origin = b.origin) := by
  fun_induction joinFrom current rs with
  | case1 current => exact .singleton _
  | case2 current r rs hcontinues ih => exact ih
  | case3 current r rs hcontinues ih =>
    obtain ⟨r', rest, hjoin, hfirst, horigin⟩ := joinFrom_eq_cons r rs
    rw [hjoin] at ih ⊢
    refine .cons_cons ?_ ih
    rw [hfirst, horigin, ← continues_iff]
    exact hcontinues

end Range

namespace Map

/-- Ranges to look positions up in: they stand apart in their order, and of two that touch the origins
    differ. -/
structure Canonical (map : Map) : Prop where
  separated : Separated map.ranges
  merged : map.ranges.IsChain fun a b => ¬ (a.stop = b.first ∧ a.origin = b.origin)

/-- The search finds the range that takes in a position. -/
theorem rangeAt?_eq_some_iff {map : Map} (h : Separated map.ranges) {pc : Nat} {r : Range} :
    map.rangeAt? pc = some r ↔ r ∈ map.ranges ∧ r.first ≤ pc ∧ pc < r.stop := by
  have hlast : ∀ {rs : List Range}, Separated rs → r ∈ rs → r.first ≤ pc → pc < r.stop →
      (rs.takeWhile (·.first ≤ pc)).getLast? = some r := by
    intro rs hrs hr hle hlt
    induction rs with
    | nil => cases hr
    | cons a rs ih =>
      have hafter := (List.pairwise_cons.1 hrs.pairwise).1
      rcases List.mem_cons.1 hr with rfl | hr
      · -- the ranges behind begin where this one ends, past the position
        have hnone : rs.takeWhile (·.first ≤ pc) = [] := by
          cases rs with
          | nil => rfl
          | cons b rs =>
            have hb := hafter b List.mem_cons_self
            have hnot : ¬ b.first ≤ pc := by omega
            simp [hnot]
        rw [List.takeWhile_cons, if_pos (by simpa using hle), hnone]
        rfl
      · have ha := hrs.nonempty a List.mem_cons_self
        have har := hafter r hr
        have hlea : a.first ≤ pc := by omega
        rw [List.takeWhile_cons, if_pos (by simpa using hlea), List.getLast?_cons,
          ih hrs.tail hr]
        rfl
  constructor
  · intro hfound
    unfold rangeAt? at hfound
    split at hfound
    · next r' hr' =>
      split at hfound
      · next hlt =>
        obtain rfl := Option.some.inj hfound
        have hmem := List.mem_of_getLast? hr'
        have hle := List.mem_takeWhile_imp hmem
        exact ⟨(List.takeWhile_prefix _).subset hmem, by simpa using hle, hlt⟩
      · cases hfound
    · cases hfound
  · rintro ⟨hr, hle, hlt⟩
    unfold rangeAt?
    rw [hlast h hr hle hlt]
    exact if_pos hlt

end Map

/-! ### Maps -/

/-- The items of the map written `text`. -/
def itemTexts (text : String) : List (List Char) := Text.splitOn ';' text.toList

/-- The map written `text` has an `i`-th item, and behind it stands `item`. -/
def Expands (text : String) (i : Nat) (item : Item) : Prop :=
  i < (itemTexts text).length ∧ Inherits ((itemTexts text).take (i + 1)) item

/-- The `i`-th item is the first one that belongs to an instruction and is ill written. -/
def FirstIllWritten (text : String) (code : Bytes) (i : Nat) : Prop :=
  HasInstruction code i ∧ (∃ item, (itemTexts text)[i]? = some item ∧ IllWritten item) ∧
    ∀ j < i, ∀ item, (itemTexts text)[j]? = some item → ¬ IllWritten item

theorem lt_length_instructions (code : Bytes) (i : Nat) :
    i < (instructions code).length ↔ HasInstruction code i := by
  have h := getElem?_instructions code i
  split at h
  · next hhas => exact iff_of_true (List.getElem?_eq_some_iff.1 h).1 hhas
  · next hnot => exact iff_of_false (Nat.not_lt.2 (List.getElem?_eq_none_iff.1 h)) hnot

theorem FieldNumber.unique {n m : Int} {field : Option (List Char)} (hn : FieldNumber n field)
    (hm : FieldNumber m field) : n = m := by
  cases field with
  | none => exact hn.trans hm.symm
  | some text =>
    have hread : Text.readI64 text = .ok n := Text.readI64_eq_ok_iff.2 hn
    rw [Text.readI64_eq_ok_iff.2 hm] at hread
    exact (Except.ok.inj hread).symm

theorem Inherits.unique {items : List (List Char)} {a b : Item} (ha : Inherits items a)
    (hb : Inherits items b) : a = b := by
  cases a
  cases b
  congr
  · exact ha.start.unique hb.start
  · exact ha.length.unique hb.length
  · exact ha.file.unique hb.file
  · exact ha.jump.trans hb.jump.symm

namespace Map

/-- The ranges of the instructions, each from its item. -/
def itemRanges (code : Bytes) (items : List Item) : List Range :=
  ((instructions code).zip items).filterMap fun ((pc, size), item) => item.range? pc size

theorem getElem?_zip_instructions {code : Bytes} {items : List Item} {i pc size : Nat} {item : Item} :
    ((instructions code).zip items)[i]? = some ((pc, size), item) ↔
      HasInstruction code i ∧ items[i]? = some item ∧ pc = instructionStart code i ∧
        pc + size = instructionStart code (i + 1) := by
  have hlt := instructionStart_lt_succ code i
  rw [List.getElem?_zip_eq_some, getElem?_instructions]
  split
  · next hhas =>
    rw [Option.some.injEq, Prod.mk.injEq]
    constructor
    · rintro ⟨⟨rfl, rfl⟩, hitem⟩
      exact ⟨hhas, hitem, rfl, by omega⟩
    · rintro ⟨_, hitem, rfl, hend⟩
      exact ⟨⟨rfl, by omega⟩, hitem⟩
  · next hnot => simp [hnot]

theorem mem_itemRanges {code : Bytes} {items : List Item} {r : Range} :
    r ∈ itemRanges code items ↔ ∃ i item, HasInstruction code i ∧ items[i]? = some item ∧
      r.first = instructionStart code i ∧ r.stop = instructionStart code (i + 1) ∧
      item.origin? = some r.origin := by
  rw [itemRanges, List.mem_filterMap]
  constructor
  · rintro ⟨⟨⟨pc, size⟩, item⟩, hmem, hr⟩
    obtain ⟨i, hi⟩ := List.mem_iff_getElem?.1 hmem
    obtain ⟨hhas, hitem, hstart, hend⟩ := getElem?_zip_instructions.1 hi
    obtain ⟨hfirst, hstop, horigin⟩ := Item.range?_eq_some_iff.1 hr
    exact ⟨i, item, hhas, hitem, hfirst.trans hstart, hstop.trans hend, horigin⟩
  · rintro ⟨i, item, hhas, hitem, hfirst, hstop, horigin⟩
    have hlt := instructionStart_lt_succ code i
    have hsize : r.first + (r.stop - r.first) = r.stop := by omega
    refine ⟨((r.first, r.stop - r.first), item), ?_, ?_⟩
    · exact List.mem_of_getElem?
        (getElem?_zip_instructions.2 ⟨hhas, hitem, hfirst, hsize.trans hstop⟩)
    · exact Item.range?_eq_some_iff.2 ⟨rfl, hsize.symm, horigin⟩

theorem separated_itemRanges (code : Bytes) (items : List Item) :
    Separated (itemRanges code items) := by
  constructor
  · intro r hr
    obtain ⟨i, item, _, _, hfirst, hstop, _⟩ := mem_itemRanges.1 hr
    rw [hfirst, hstop]
    exact instructionStart_lt_succ code i
  · rw [itemRanges, List.pairwise_filterMap, List.pairwise_iff_getElem]
    intro i j hi hj hij a ha b hb
    obtain ⟨_, _, _, hend⟩ := getElem?_zip_instructions.1 (List.getElem?_eq_getElem hi)
    obtain ⟨_, _, hstart, _⟩ := getElem?_zip_instructions.1 (List.getElem?_eq_getElem hj)
    rw [(Item.range?_eq_some_iff.1 ha).2.1, (Item.range?_eq_some_iff.1 hb).1, hend, hstart]
    exact (instructionStart_strictMono code).monotone hij

theorem holds_join {rs : List Range} (h : Separated rs) (pc : Nat) (o : Origin) :
    Holds (Range.join rs) pc o ↔ Holds rs pc o := by
  cases rs with
  | nil => rfl
  | cons r rs => exact Range.holds_joinFrom h pc o

theorem canonical_join {rs : List Range} (h : Separated rs) (files : List String) :
    Canonical ⟨Range.join rs, files⟩ := by
  cases rs with
  | nil => exact ⟨h, .nil⟩
  | cons r rs => exact ⟨Range.separated_joinFrom h, Range.isChain_joinFrom r rs⟩

/-- A position comes from where the range says that takes it in. -/
theorem origin_rangeAt? {map : Map} (h : Separated map.ranges) (pc : Nat) (o : Origin) :
    (map.rangeAt? pc).map Range.origin = some o ↔ Holds map.ranges pc o := by
  rw [Option.map_eq_some_iff]
  constructor
  · rintro ⟨r, hr, horigin⟩
    obtain ⟨hmem, hle, hlt⟩ := (rangeAt?_eq_some_iff h).1 hr
    exact ⟨r, hmem, hle, hlt, horigin⟩
  · rintro ⟨r, hmem, hle, hlt, horigin⟩
    exact ⟨r, (rangeAt?_eq_some_iff h).2 ⟨hmem, hle, hlt⟩, horigin⟩

/-- The ranges of the instructions take in a position of an instruction if its item has an origin. -/
theorem holds_itemRanges {text : String} {code : Bytes} {items : List Item} {n : Nat}
    (hn : n = (instructions code).length)
    (hread : Item.readAll 0 .initial ((itemTexts text).take n) = .ok items) (pc : Nat) (o : Origin) :
    Holds (itemRanges code items) pc o ↔
      ∃ i item, InInstruction code i pc ∧ Expands text i item ∧ item.origin? = some o := by
  obtain ⟨hlength, hinherits⟩ := Item.inherits_of_readAll inherits_nil hread
  have hexpands {i : Nat} {item : Item} (hhas : HasInstruction code i) :
      items[i]? = some item ↔ Expands text i item := by
    have hlt := (lt_length_instructions code i).2 hhas
    have htake : ((itemTexts text).take n).take (i + 1) = (itemTexts text).take (i + 1) := by
      rw [List.take_take, Nat.min_eq_left (by omega)]
    have hthere : i < items.length ↔ i < (itemTexts text).length := by
      rw [hlength, List.length_take]
      omega
    constructor
    · intro hitem
      have hitem' := hinherits hitem
      rw [List.nil_append, htake] at hitem'
      exact ⟨hthere.1 (List.getElem?_eq_some_iff.1 hitem).1, hitem'⟩
    · rintro ⟨hi, hitem⟩
      have hitem' := hinherits (List.getElem?_eq_getElem (hthere.2 hi))
      rw [List.nil_append, htake] at hitem'
      rw [List.getElem?_eq_getElem (hthere.2 hi), hitem'.unique hitem]
  constructor
  · rintro ⟨r, hr, hle, hlt, rfl⟩
    obtain ⟨i, item, hhas, hitem, hfirst, hstop, horigin⟩ := mem_itemRanges.1 hr
    exact ⟨i, item, ⟨hhas, hfirst ▸ hle, hstop ▸ hlt⟩, (hexpands hhas).1 hitem, horigin⟩
  · rintro ⟨i, item, ⟨hhas, hle, hlt⟩, hitem, horigin⟩
    let r : Range := ⟨instructionStart code i, instructionStart code (i + 1), o.file, o.offset,
      o.length, o.jump⟩
    have hr : r ∈ itemRanges code items :=
      mem_itemRanges.2 ⟨i, item, hhas, (hexpands hhas).2 hitem, rfl, rfl, horigin⟩
    exact ⟨r, hr, hle, hlt, rfl⟩

theorem ofText_eq_ok_iff {text : String} {code : Bytes} {files : List String} {map : Map} :
    ofText text code files = .ok map ↔ ∃ items,
      Item.readAll 0 .initial ((itemTexts text).take (instructions code).length) = .ok items ∧
        map = ⟨Range.join (itemRanges code items), files⟩ := by
  rw [ofText, bind_eq_ok_iff]
  refine exists_congr fun items => and_congr_right fun _ => ?_
  constructor
  · intro h
    exact (Except.ok.inj h).symm
  · rintro rfl
    rfl

theorem ofText_eq_error_iff {text : String} {code : Bytes} {files : List String} {e : MapError} :
    ofText text code files = .error e ↔
      Item.readAll 0 .initial ((itemTexts text).take (instructions code).length) = .error e := by
  rw [ofText, bind_eq_error_iff]
  refine or_iff_left ?_
  rintro ⟨items, _, h⟩
  cases h

/-- A map is refused under the index of its first ill written item, and under no other. -/
theorem exists_error_iff_firstIllWritten (text : String) (code : Bytes) (files : List String) (i : Nat) :
    (∃ e, ofText text code files = .error e ∧ e.index = i) ↔ FirstIllWritten text code i := by
  have hfirst {e : MapError} (he : ofText text code files = .error e) :
      FirstIllWritten text code e.index := by
    obtain ⟨k, item, hindex, hk, hill, hbefore⟩ :=
      Item.readAll_eq_error inherits_nil (ofText_eq_error_iff.1 he)
    obtain rfl : e.index = k := by omega
    rw [List.getElem?_take] at hk
    split at hk
    · next hlt =>
      refine ⟨(lt_length_instructions code _).1 hlt, ⟨item, hk, hill⟩, fun j hj item' hitem' => ?_⟩
      refine hbefore j hj item' ?_
      rw [List.getElem?_take, if_pos (by omega), hitem']
    · cases hk
  constructor
  · rintro ⟨e, he, rfl⟩
    exact hfirst he
  · rintro ⟨hhas, ⟨item, hitem, hill⟩, hbefore⟩
    cases hmap : ofText text code files with
    | ok map =>
      obtain ⟨items, hread, _⟩ := ofText_eq_ok_iff.1 hmap
      refine absurd hill (Item.not_illWritten_of_readAll inherits_nil hread (i := i) ?_)
      rw [List.getElem?_take, if_pos ((lt_length_instructions code i).2 hhas), hitem]
    | error e =>
      obtain ⟨_, ⟨item', hitem', hill'⟩, hbefore'⟩ := hfirst hmap
      refine ⟨e, rfl, ?_⟩
      rcases Nat.lt_trichotomy e.index i with hlt | heq | hlt
      · exact absurd hill' (hbefore _ hlt item' hitem')
      · exact heq
      · exact absurd hill (hbefore' _ hlt item hitem)

/-- Reading a map either stops at its first ill written item or gives a table of ranges in which a
    position is found exactly if it lies in an instruction whose item, inherited fields included, has
    an origin, and then with that origin. -/
theorem rangeAt?_ofText (text : String) (code : Bytes) (files : List String) :
    (∀ i, (∃ e, ofText text code files = .error e ∧ e.index = i) ↔ FirstIllWritten text code i) ∧
      ∀ map, ofText text code files = .ok map → map.Canonical ∧
        ∀ pc o, (map.rangeAt? pc).map Range.origin = some o ↔
          ∃ i item, InInstruction code i pc ∧ Expands text i item ∧ item.origin? = some o := by
  refine ⟨exists_error_iff_firstIllWritten text code files, fun map hmap => ?_⟩
  obtain ⟨items, hread, rfl⟩ := ofText_eq_ok_iff.1 hmap
  have hseparated := separated_itemRanges code items
  have hcanonical := canonical_join hseparated files
  refine ⟨hcanonical, fun pc o => ?_⟩
  rw [origin_rangeAt? hcanonical.separated, holds_join hseparated, holds_itemRanges rfl hread]

/-- The data of the second `PUSH1` comes from where the map says of the first item, which the second
    one inherits and the joined range of both takes in. -/
theorem rangeAt?_ofText_data :
    ∃ map, ofText "10:20:0:-;;;30:5::i;-1" [0x60, 0x80, 0x60, 0x40, 0x52, 0x34, 0x80] ["Token.sol"] =
        .ok map ∧ map.Canonical ∧
      ∃ i item, InInstruction [0x60, 0x80, 0x60, 0x40, 0x52, 0x34, 0x80] i 3 ∧
        Expands "10:20:0:-;;;30:5::i;-1" i item ∧ item.origin? = some ⟨0, 10, 20, .regular⟩ := by
  have hmap : ofText "10:20:0:-;;;30:5::i;-1" [0x60, 0x80, 0x60, 0x40, 0x52, 0x34, 0x80]
      ["Token.sol"] = .ok ⟨[⟨0, 5, 0, 10, 20, .regular⟩, ⟨5, 6, 0, 30, 5, .into⟩], ["Token.sol"]⟩ :=
    rfl
  obtain ⟨hcanonical, horigin⟩ := (rangeAt?_ofText _ _ _).2 _ hmap
  exact ⟨_, hmap, hcanonical, (horigin 3 _).1 rfl⟩

end Map

end TxTrace.Source

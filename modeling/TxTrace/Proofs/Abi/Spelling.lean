import Mathlib.Algebra.Ring.Int.Defs
import Mathlib.Data.List.Forall2
import TxTrace.Abi.Ty.Parser
import TxTrace.Proofs.Abi.Size
import TxTrace.Proofs.Text.Decimal

/-!
The grammar of type texts. `Ty.Spells` says which texts are spellings of a type, and the canonical text of
a type is one (`Ty.spells_canonical`). Spellings are nested (`Nested`): their parentheses pair up, and no
comma stands outside of them.
-/

namespace TxTrace.Abi.Ty

/-! ### Nested texts -/

/-- Characters of the names and the numbers in a type's text: letters, digits and the plus sign. -/
def isWordChar (c : Char) : Bool :=
  let n := c.toNat
  (48 ≤ n && n ≤ 57) || (65 ≤ n && n ≤ 90) || (97 ≤ n && n ≤ 122) || n == 43

def isWord (cs : List Char) : Bool := cs.all isWordChar

/-- Texts that are made of words, of size brackets behind a text, and of parentheses around texts with
    commas between them. -/
inductive Nested : List Char → Prop
  | word {cs : List Char} (hne : cs ≠ []) (hword : isWord cs) : Nested cs
  | brackets {cs size : List Char} (h : Nested cs) (hword : isWord size) :
      Nested (cs ++ '[' :: (size ++ [']']))
  | parentheses {parts : List (List Char)} (h : ∀ part ∈ parts, Nested part) :
      Nested ('(' :: (",".toList.intercalate parts ++ [')']))

variable {cs xs ys rest size pre part : List Char} {parts : List (List Char)} {c : Char}

theorem intercalate_cons (part : List Char) (parts : List (List Char)) :
    ",".toList.intercalate (part :: parts) =
      part ++ if parts = [] then [] else ',' :: ",".toList.intercalate parts := by
  cases parts with
  | nil => simp
  | cons part' parts =>
    rw [List.intercalate_cons_cons, if_neg (List.cons_ne_nil _ _), List.append_assoc]
    rfl

theorem Nested.ne_nil (h : Nested cs) : cs ≠ [] := by
  cases h with
  | word hne => exact hne
  | brackets | parentheses => simp

theorem isWordChar_of_mem (hword : isWord cs) (hc : c ∈ cs) : isWordChar c :=
  List.all_eq_true.1 hword c hc

theorem isBlank_of_isWordChar (hc : isWordChar c) : Text.isBlank c = false := by
  simp only [isWordChar, Bool.or_eq_true, Bool.and_eq_true, decide_eq_true_eq, beq_iff_eq] at hc
  simp only [Text.isBlank, Bool.or_eq_false_iff, Bool.and_eq_false_iff, decide_eq_false_iff_not,
    beq_eq_false_iff_ne]
  omega

theorem mem_intercalate (hc : c ∈ ",".toList.intercalate parts) :
    c = ',' ∨ ∃ part ∈ parts, c ∈ part := by
  induction parts with
  | nil => simp at hc
  | cons part parts ih =>
    rw [intercalate_cons, List.mem_append] at hc
    rcases hc with hc | hc
    · exact .inr ⟨part, List.mem_cons_self, hc⟩
    · split at hc
      · cases hc
      · rcases List.mem_cons.1 hc with rfl | hc
        · exact .inl rfl
        · rcases ih hc with rfl | ⟨part', hpart', hc⟩
          · exact .inl rfl
          · exact .inr ⟨part', List.mem_cons_of_mem _ hpart', hc⟩

theorem Nested.isBlank_eq_false (h : Nested cs) : ∀ c ∈ cs, Text.isBlank c = false := by
  induction h with
  | word _ hword => exact fun c hc => isBlank_of_isWordChar (isWordChar_of_mem hword hc)
  | brackets _ hword ih =>
    intro c hc
    simp only [List.mem_append, List.mem_cons, List.not_mem_nil, or_false] at hc
    rcases hc with hc | rfl | hc | rfl
    · exact ih c hc
    · rfl
    · exact isBlank_of_isWordChar (isWordChar_of_mem hword hc)
    · rfl
  | parentheses _ ih =>
    intro c hc
    simp only [List.mem_cons, List.mem_append, List.not_mem_nil, or_false] at hc
    rcases hc with rfl | hc | rfl
    · rfl
    · rcases mem_intercalate hc with rfl | ⟨part, hpart, hc⟩
      · rfl
      · exact ih part hpart c hc
    · rfl

/-! ### Cutting nested texts at commas -/

variable {depth : Nat} {current : List Char}

/-- Characters that are neither commas nor parentheses belong to the part at hand. -/
theorem splitAt_append (hcs : ∀ c ∈ cs, c ≠ ',' ∧ c ≠ '(' ∧ c ≠ ')') :
    splitAt depth current (cs ++ rest) = splitAt depth (cs.reverse ++ current) rest := by
  induction cs generalizing current with
  | nil => rfl
  | cons c cs ih =>
    obtain ⟨hcomma, hopen, hclose⟩ := hcs c List.mem_cons_self
    rw [List.cons_append, splitAt, if_neg (fun h => hcomma h.1)]
    simp only [if_neg hopen, if_neg hclose]
    rw [ih fun c hc => hcs c (List.mem_cons_of_mem _ hc), List.reverse_cons, List.append_assoc]
    rfl

theorem separators_of_isWordChar (hc : isWordChar c) : c ≠ ',' ∧ c ≠ '(' ∧ c ≠ ')' := by
  refine ⟨?_, ?_, ?_⟩ <;> · rintro rfl; exact absurd hc (by decide)

/-- Inside of parentheses the commas do not cut either. -/
theorem splitAt_succ_intercalate
    (hparts : ∀ part ∈ parts, ∀ depth current rest,
      splitAt depth current (part ++ rest) = splitAt depth (part.reverse ++ current) rest) :
    splitAt (depth + 1) current (",".toList.intercalate parts ++ rest) =
      splitAt (depth + 1) ((",".toList.intercalate parts).reverse ++ current) rest := by
  induction parts generalizing current with
  | nil => simp
  | cons part parts ih =>
    rw [intercalate_cons, List.append_assoc, hparts part List.mem_cons_self]
    split
    · simp
    · rw [List.cons_append, splitAt, if_neg (by simp)]
      simp only [show ',' ≠ '(' by decide, show ',' ≠ ')' by decide, if_false]
      rw [ih fun part hpart => hparts part (List.mem_cons_of_mem _ hpart)]
      simp

/-- A nested text belongs to the part at hand, whatever the depth it stands at. -/
theorem Nested.splitAt_append (h : Nested cs) (depth : Nat) (current rest : List Char) :
    splitAt depth current (cs ++ rest) = splitAt depth (cs.reverse ++ current) rest := by
  induction h generalizing depth current rest with
  | word _ hword =>
    exact Ty.splitAt_append fun c hc => separators_of_isWordChar (isWordChar_of_mem hword hc)
  | @brackets cs size _ hword ih =>
    have hsize : ∀ c ∈ '[' :: (size ++ [']']), c ≠ ',' ∧ c ≠ '(' ∧ c ≠ ')' := by
      intro c hc
      simp only [List.mem_cons, List.mem_append, List.not_mem_nil, or_false] at hc
      rcases hc with rfl | hc | rfl
      · decide
      · exact separators_of_isWordChar (isWordChar_of_mem hword hc)
      · decide
    rw [List.append_assoc, ih, Ty.splitAt_append hsize, List.reverse_append, List.append_assoc]
  | parentheses _ ih =>
    rw [List.cons_append, splitAt, if_neg (by simp), List.append_assoc]
    simp only [if_true]
    rw [splitAt_succ_intercalate ih, List.singleton_append, splitAt, if_neg (by simp)]
    simp

theorem splitAt_intercalate (hne : parts ≠ []) (hparts : ∀ part ∈ parts, Nested part) :
    splitAt 0 [] (",".toList.intercalate parts) = parts := by
  induction parts with
  | nil => exact absurd rfl hne
  | cons part parts ih =>
    have hpart := hparts part List.mem_cons_self
    rw [intercalate_cons, hpart.splitAt_append, List.append_nil]
    split
    · next hnil => rw [splitAt, List.reverse_reverse, hnil]
    · next hne =>
      rw [splitAt, if_pos ⟨rfl, rfl⟩, List.reverse_reverse,
        ih hne fun part hpart => hparts part (List.mem_cons_of_mem _ hpart)]

/-! ### Parentheses that pair up -/

/-- The parentheses that are opened in a text, less those that are closed. -/
def nesting (cs : List Char) : Int := cs.count '(' - cs.count ')'

theorem nesting_append (xs ys : List Char) : nesting (xs ++ ys) = nesting xs + nesting ys := by
  simp only [nesting, List.count_append]
  omega

/-- All parentheses are closed, and none before it is opened. -/
def Balanced (cs : List Char) : Prop := nesting cs = 0 ∧ ∀ pre, pre <+: cs → 0 ≤ nesting pre

theorem Balanced.append (hxs : Balanced xs) (hys : Balanced ys) : Balanced (xs ++ ys) := by
  refine ⟨by rw [nesting_append, hxs.1, hys.1]; rfl, ?_⟩
  rintro pre ⟨after, hpre⟩
  rcases List.append_eq_append_iff.1 hpre with ⟨zs, rfl, -⟩ | ⟨zs, rfl, rfl⟩
  · exact hxs.2 pre (List.prefix_append pre zs)
  · rw [nesting_append, hxs.1, Int.zero_add]
    exact hys.2 zs (List.prefix_append zs after)

theorem nesting_eq_zero (hcs : ∀ c ∈ cs, c ≠ '(' ∧ c ≠ ')') : nesting cs = 0 := by
  have hopen : cs.count '(' = 0 := List.count_eq_zero.2 fun hc => (hcs _ hc).1 rfl
  have hclose : cs.count ')' = 0 := List.count_eq_zero.2 fun hc => (hcs _ hc).2 rfl
  rw [nesting, hopen, hclose]
  rfl

theorem balanced_of_forall_ne (hcs : ∀ c ∈ cs, c ≠ '(' ∧ c ≠ ')') : Balanced cs := by
  refine ⟨nesting_eq_zero hcs, fun pre hpre => ?_⟩
  rw [nesting_eq_zero fun c hc => hcs c (hpre.subset hc)]

/-- Inside of parentheses around a balanced text, one more is open. -/
theorem Balanced.nesting_pos (h : Balanced cs) (hpre : pre <+: '(' :: (cs ++ [')'])) (hne : pre ≠ [])
    (hproper : pre ≠ '(' :: (cs ++ [')'])) : 0 < nesting pre := by
  obtain ⟨c, inner, rfl⟩ := List.exists_cons_of_ne_nil hne
  obtain ⟨rfl, hinner⟩ := List.cons_prefix_cons.1 hpre
  rcases List.prefix_concat_iff.1 hinner with rfl | hinner
  · exact absurd rfl hproper
  · have hle := h.2 inner hinner
    have hcons : nesting ('(' :: inner) = nesting inner + 1 := by
      simp only [nesting, List.count_cons_self, List.count_cons_of_ne (show '(' ≠ ')' by decide)]
      omega
    omega

theorem Balanced.parentheses (h : Balanced cs) : Balanced ('(' :: (cs ++ [')'])) := by
  have hwhole : nesting ('(' :: (cs ++ [')'])) = 0 := by
    have happend : nesting ('(' :: (cs ++ [')'])) = nesting ['('] + (nesting cs + nesting [')']) := by
      rw [← nesting_append, ← nesting_append]
      rfl
    rw [happend, h.1]
    rfl
  refine ⟨hwhole, fun pre hpre => ?_⟩
  by_cases hne : pre = []
  · rw [hne]
    exact Int.le_refl 0
  · by_cases hproper : pre = '(' :: (cs ++ [')'])
    · rw [hproper, hwhole]
    · exact Int.le_of_lt (h.nesting_pos hpre hne hproper)

theorem balanced_intercalate (hparts : ∀ part ∈ parts, Balanced part) :
    Balanced (",".toList.intercalate parts) := by
  induction parts with
  | nil => exact balanced_of_forall_ne (by simp)
  | cons part parts ih =>
    rw [intercalate_cons]
    refine (hparts part List.mem_cons_self).append ?_
    split
    · exact balanced_of_forall_ne (by simp)
    · have hcomma : Balanced [','] := balanced_of_forall_ne (by simp)
      exact hcomma.append (ih fun part hpart => hparts part (List.mem_cons_of_mem _ hpart))

theorem Nested.balanced (h : Nested cs) : Balanced cs := by
  induction h with
  | word _ hword =>
    exact balanced_of_forall_ne fun c hc => (separators_of_isWordChar (isWordChar_of_mem hword hc)).2
  | @brackets cs size _ hword ih =>
    refine ih.append (balanced_of_forall_ne fun c hc => ?_)
    simp only [List.mem_cons, List.mem_append, List.not_mem_nil, or_false] at hc
    rcases hc with rfl | hc | rfl
    · decide
    · exact (separators_of_isWordChar (isWordChar_of_mem hword hc)).2
    · decide
  | parentheses _ ih => exact (balanced_intercalate ih).parentheses

/-! ### Spellings -/

/-- The text is a spelling of the type, where `N n digits` says that a number `n` may be written as
    `digits`. The members of tuples have no names in it. -/
inductive Spells (N : Nat → List Char → Prop) : Ty → List Char → Prop
  | address : Spells N .address "address".toList
  | bool : Spells N .bool "bool".toList
  | uint {w : Width} {digits : List Char} (h : N w.bits digits) :
      Spells N (.uint w) ("uint".toList ++ digits)
  | uintWord : Spells N (.uint .word) "uint".toList
  | int {w : Width} {digits : List Char} (h : N w.bits digits) :
      Spells N (.int w) ("int".toList ++ digits)
  | intWord : Spells N (.int .word) "int".toList
  | fixedBytes {w : Width} {digits : List Char} (h : N w.bytes digits) :
      Spells N (.fixedBytes w) ("bytes".toList ++ digits)
  | function : Spells N .function "function".toList
  | bytes : Spells N .bytes "bytes".toList
  | string : Spells N .string "string".toList
  | array {elem : Ty} {cs : List Char} (h : Spells N elem cs) :
      Spells N (.array elem) (cs ++ "[]".toList)
  | fixedArray {elem : Ty} {size : UInt64} {cs digits : List Char} (h : Spells N elem cs)
      (hsize : N size.toNat digits) :
      Spells N (.fixedArray elem size) (cs ++ '[' :: (digits ++ [']']))
  | tuple {members : List (Member Ty)} {parts : List (List Char)}
      (hnames : ∀ m ∈ members, m.name = none)
      (h : List.Forall₂ (fun m part => Spells N m.val part) members parts) :
      Spells N (.tuple members) ('(' :: (",".toList.intercalate parts ++ [')']))

variable {N N' : Nat → List Char → Prop} {ty elem : Ty} {members : List (Member Ty)}

theorem forall₂_imp_of_mem {α β : Type} {R S : α → β → Prop} {as : List α} {bs : List β}
    (h : List.Forall₂ R as bs) (himp : ∀ a ∈ as, ∀ b ∈ bs, R a b → S a b) : List.Forall₂ S as bs := by
  rw [List.forall₂_iff_zip] at h ⊢
  exact ⟨h.1, fun hmem => himp _ (List.of_mem_zip hmem).1 _ (List.of_mem_zip hmem).2 (h.2 hmem)⟩

theorem exists_of_mem_right {α β : Type} {R : α → β → Prop} {as : List α} {bs : List β} {b : β}
    (h : List.Forall₂ R as bs) (hb : b ∈ bs) : ∃ a ∈ as, R a b := by
  obtain ⟨i, hi, rfl⟩ := List.getElem_of_mem hb
  have hlt : i < as.length := by rwa [h.length_eq]
  exact ⟨as[i], List.getElem_mem hlt, (List.forall₂_iff_get.1 h).2 i hlt hi⟩

theorem Spells.imp (hN : ∀ n digits, N n digits → N' n digits) (h : Spells N ty cs) :
    Spells N' ty cs := by
  induction ty using Ty.induct generalizing cs with
  | address | bool | function | bytes | string =>
    cases h
    constructor
  | uint w =>
    cases h with
    | uint h => exact .uint (hN _ _ h)
    | uintWord => exact .uintWord
  | int w =>
    cases h with
    | int h => exact .int (hN _ _ h)
    | intWord => exact .intWord
  | fixedBytes w =>
    cases h with
    | fixedBytes h => exact .fixedBytes (hN _ _ h)
  | array elem ih =>
    cases h with
    | array h => exact .array (ih h)
  | fixedArray elem size ih =>
    cases h with
    | fixedArray h hsize => exact .fixedArray (ih h) (hN _ _ hsize)
  | tuple members ih =>
    cases h with
    | tuple hnames h =>
      exact .tuple hnames (forall₂_imp_of_mem h fun m hm _ _ => ih m hm)

theorem isWord_of_padded {n : Nat} (h : Text.Padded n cs) : isWord cs := by
  refine List.all_eq_true.2 fun c hc => ?_
  rcases h.isDigit_or_eq hc with hdigit | rfl
  · have hrange := (Text.isDigit_iff c).1 hdigit
    simp [isWordChar, hrange]
  · rfl

/-- A name and a number behind it are one word. -/
theorem isWord_append_padded {n : Nat} (hxs : isWord xs) (h : Text.Padded n cs) : isWord (xs ++ cs) := by
  rw [isWord, List.all_append, Bool.and_eq_true]
  exact ⟨hxs, isWord_of_padded h⟩

theorem nested_append_padded {n : Nat} (hxs : isWord xs) (h : Text.Padded n cs) : Nested (xs ++ cs) :=
  .word (List.append_ne_nil_of_right_ne_nil _ h.ne_nil) (isWord_append_padded hxs h)

theorem Spells.nested (h : Spells Text.Padded ty cs) : Nested cs := by
  induction ty using Ty.induct generalizing cs with
  | address | bool | function | bytes | string =>
    cases h
    exact .word (by decide) (by decide)
  | uint w =>
    cases h with
    | uint h => exact nested_append_padded (by decide) h
    | uintWord => exact .word (by decide) (by decide)
  | int w =>
    cases h with
    | int h => exact nested_append_padded (by decide) h
    | intWord => exact .word (by decide) (by decide)
  | fixedBytes w =>
    cases h with
    | fixedBytes h => exact nested_append_padded (by decide) h
  | array elem ih =>
    cases h with
    | array h => exact .brackets (ih h) (show isWord [] from rfl)
  | fixedArray elem size ih =>
    cases h with
    | fixedArray h hsize => exact .brackets (ih h) (isWord_of_padded hsize)
  | tuple members ih =>
    cases h with
    | tuple hnames h =>
      refine .parentheses fun part hpart => ?_
      obtain ⟨m, hm, hspells⟩ := exists_of_mem_right h hpart
      exact ih m hm hspells

/-! ### Canonical texts -/

mutual

/-- The type without the names of the members of its tuples. -/
def unnamed : Ty → Ty
  | array elem => array elem.unnamed
  | fixedArray elem size => fixedArray elem.unnamed size
  | tuple members => tuple (unnamedMembers members)
  | ty => ty

def unnamedMembers : List (Member Ty) → List (Member Ty)
  | [] => []
  | m :: ms => .unnamed m.val.unnamed :: unnamedMembers ms

end

theorem digits_toString (n : Nat) : Text.Digits n (toString n).toList := by
  rw [Text.Digits, Nat.toString_eq_ofList_toDigits, String.toList_ofList]

theorem name_of_mem_unnamedMembers : ∀ m ∈ unnamedMembers members, m.name = none := by
  induction members with
  | nil => simp [unnamedMembers]
  | cons m ms ih =>
    rw [unnamedMembers]
    intro m' hm'
    rcases List.mem_cons.1 hm' with rfl | hm'
    · rfl
    · exact ih m' hm'

theorem spells_canonicalMembers
    (hmembers : ∀ m ∈ members, Spells N m.val.unnamed m.val.canonical.toList) :
    List.Forall₂ (fun m part => Spells N m.val part) (unnamedMembers members)
      ((canonicalMembers members).map String.toList) := by
  induction members with
  | nil =>
    rw [unnamedMembers, canonicalMembers]
    exact .nil
  | cons m ms ih =>
    rw [unnamedMembers, canonicalMembers, List.map_cons]
    exact .cons (hmembers m List.mem_cons_self) (ih fun m hm => hmembers m (List.mem_cons_of_mem _ hm))

/-- The canonical text of a type spells it, without names. -/
theorem spells_canonical (ty : Ty) : Spells Text.Digits ty.unnamed ty.canonical.toList := by
  induction ty using Ty.induct with
  | address | bool | function | bytes | string =>
    rw [unnamed, canonical]
    · constructor
    all_goals simp
  | uint w =>
    rw [unnamed, canonical, String.toList_append]
    · exact .uint (digits_toString _)
    all_goals simp
  | int w =>
    rw [unnamed, canonical, String.toList_append]
    · exact .int (digits_toString _)
    all_goals simp
  | fixedBytes w =>
    rw [unnamed, canonical, String.toList_append]
    · exact .fixedBytes (digits_toString _)
    all_goals simp
  | array elem ih =>
    rw [unnamed, canonical, String.toList_append]
    exact .array ih
  | fixedArray elem size ih =>
    rw [unnamed, canonical]
    simp only [String.toList_append, List.append_assoc]
    exact .fixedArray ih (digits_toString _)
  | tuple members ih =>
    rw [unnamed, canonical]
    simp only [String.toList_append, String.toList_intercalate, List.append_assoc]
    exact .tuple name_of_mem_unnamedMembers (spells_canonicalMembers ih)

end TxTrace.Abi.Ty

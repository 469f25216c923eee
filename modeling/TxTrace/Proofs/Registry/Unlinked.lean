import TxTrace.Proofs.Text.Blank
import TxTrace.Proofs.Text.Hex
import TxTrace.Registry.Artifact

/-!
Code that is not linked yet. In place of the address of a library stands a text of 40 characters that
names it. The hex digits among them are read as what they are, and all other characters as zero: the
placeholder is read as the zero address exactly if it has no hex digit but zeros
(`Artifact.readCode_eq_linked_iff`).
-/

namespace TxTrace

namespace Artifact

/-- A hex digit of either case. -/
abbrev HexDigit : Type := { c : Char // (Hex.value? c).isSome }

/-- What stands for the address of a library: 40 characters, the first two of them underscores. -/
inductive Placeholder where
  /-- A part of the hash of the library's name. -/
  | hash (digits : List HexDigit) (length_eq : digits.length = 34)
  /-- The library's name, with underscores up to the length. -/
  | name (label : List Char) (length_le : label.length ≤ 38)
      (solid : ∀ c ∈ label, Text.isBlank c = false)

/-- The characters of a placeholder. -/
def Placeholder.text : Placeholder → List Char
  | hash digits _ => ['_', '_', '$'] ++ digits.map (·.val) ++ ['$', '_', '_']
  | name label _ _ => ['_', '_'] ++ label ++ List.replicate (38 - label.length) '_'

/-- A piece of code that is not linked yet. -/
inductive Piece where
  | byte (high low : HexDigit)
  | placeholder (p : Placeholder)

namespace Piece

/-- The characters of a piece. -/
def text : Piece → List Char
  | byte high low => [high.val, low.val]
  | placeholder p => p.text

/-- The bytes of a piece, the zero address for a placeholder. -/
def linked : Piece → Bytes
  | byte high low => [UInt8.ofNat (Hex.digitValue high.val * 16 + Hex.digitValue low.val)]
  | placeholder _ => List.replicate 20 0

/-- The bytes that the characters of a piece spell, zero for each that is no hex digit. -/
def spelt (p : Piece) : Bytes := Hex.pairBytes (p.text.map Hex.digitValue)

end Piece

theorem Placeholder.length_text (p : Placeholder) : p.text.length = 40 := by
  cases p with
  | hash digits length_eq => simp [text, length_eq]
  | name label length_le =>
    simp only [text, List.length_append, List.length_replicate, List.length_cons, List.length_nil]
    omega

/-- A placeholder spells the zero address exactly if it has no hex digit but zeros. -/
theorem Piece.spelt_placeholder_eq_iff (p : Placeholder) :
    (placeholder p).spelt = (placeholder p).linked ↔
      ∀ c ∈ p.text, ∀ d, Hex.value? c = some d → d = 0 := by
  have hlength : (p.text.map Hex.digitValue).length = 40 := by rw [List.length_map, p.length_text]
  have hzero := Hex.pairBytes_eq_replicate_iff (p.text.map Hex.digitValue)
    (List.forall_mem_map.2 fun c _ => Hex.digitValue_lt c) (by rw [hlength])
  rw [hlength, List.forall_mem_map] at hzero
  simp only [spelt, text, linked, ← Hex.digitValue_eq_zero_iff]
  exact hzero

theorem Piece.spelt_byte (high low : HexDigit) : (byte high low).spelt = (byte high low).linked := rfl

theorem Piece.length_spelt (p : Piece) : p.spelt.length = p.linked.length := by
  cases p with
  | byte => rfl
  | placeholder p =>
    rw [spelt, Hex.length_pairBytes, List.length_map, text, p.length_text, linked, List.length_replicate]

theorem Piece.length_text_even (p : Piece) : p.text.length % 2 = 0 := by
  cases p with
  | byte => simp [text]
  | placeholder p => rw [text, p.length_text]

theorem Piece.isBlank_of_mem_text {p : Piece} {c : Char} (hc : c ∈ p.text) : Text.isBlank c = false := by
  cases p with
  | byte high low =>
    rw [text, List.mem_cons, List.mem_singleton] at hc
    rcases hc with rfl | rfl
    · exact Hex.isBlank_of_isSome high.property
    · exact Hex.isBlank_of_isSome low.property
  | placeholder p =>
    cases p with
    | hash digits =>
      simp only [text, Placeholder.text, List.mem_append, List.mem_map] at hc
      rcases hc with (hc | ⟨digit, -, rfl⟩) | hc
      · exact Text.forall_isBlank_eq_false (show ['_', '_', '$'].any Text.isBlank = false from rfl) c hc
      · exact Hex.isBlank_of_isSome digit.property
      · exact Text.forall_isBlank_eq_false (show ['$', '_', '_'].any Text.isBlank = false from rfl) c hc
    | name label _ solid =>
      simp only [text, Placeholder.text, List.mem_append] at hc
      rcases hc with (hc | hc) | hc
      · exact Text.forall_isBlank_eq_false (show ['_', '_'].any Text.isBlank = false from rfl) c hc
      · exact solid c hc
      · rw [List.eq_of_mem_replicate hc]
        decide

/-- The digits of code, an even number of them, are read in pairs. What is no hex digit reads as zero. -/
theorem readCode_of_even {code : String} {cs : List Char}
    (hcode : Hex.stripMark (Text.trim code.toList) = cs) (heven : cs.length % 2 = 0) :
    readCode code = .ok (Hex.pairBytes (cs.map Hex.digitValue)) := by
  have hclean (c : Char) : (Hex.value? (if (Hex.value? c).isSome then c else '0')).isSome ∧
      Hex.digitValue (if (Hex.value? c).isSome then c else '0') = Hex.digitValue c := by
    split
    · next hdigit => exact ⟨hdigit, rfl⟩
    · next hdigit =>
      rw [Hex.digitValue, Hex.digitValue, Option.not_isSome_iff_eq_none.1 hdigit]
      decide
  have hread : Hex.read (cs.map fun c => if (Hex.value? c).isSome then c else '0') =
      .ok (Hex.pairBytes (cs.map Hex.digitValue)) := by
    rw [Hex.read_eq_ok (List.forall_mem_map.2 fun c _ => (hclean c).1) (by rwa [List.length_map]), List.map_map]
    congr 2
    exact List.map_congr_left fun c _ => (hclean c).2
  rw [readCode, hcode, hread]
  rfl

theorem length_flatMap_text_even (pieces : List Piece) : (pieces.flatMap Piece.text).length % 2 = 0 := by
  induction pieces with
  | nil => rfl
  | cons p pieces ih =>
    have hp := p.length_text_even
    rw [List.flatMap_cons, List.length_append]
    omega

theorem pairBytes_flatMap_text (pieces : List Piece) :
    Hex.pairBytes ((pieces.flatMap Piece.text).map Hex.digitValue) = pieces.flatMap Piece.spelt := by
  induction pieces with
  | nil => rfl
  | cons p pieces ih =>
    rw [List.flatMap_cons, List.map_append, Hex.pairBytes_append _ _ (by rw [List.length_map, p.length_text_even]),
      ih, List.flatMap_cons, Piece.spelt]

/-- Pieces do not begin with a mark of hex digits: no digit and no underscore is an `x`. -/
theorem stripMark_flatMap_text (pieces : List Piece) :
    Hex.stripMark (pieces.flatMap Piece.text) = pieces.flatMap Piece.text := by
  cases pieces with
  | nil => rfl
  | cons p pieces =>
    rw [List.flatMap_cons]
    cases p with
    | byte high low =>
      have hlow : low.val ≠ 'x' := fun heq => absurd low.property (by rw [heq]; decide)
      unfold Hex.stripMark
      split
      · next rest heq => exact absurd (List.cons.inj (List.cons.inj heq).2).1 hlow
      · rfl
    | placeholder p => cases p <;> rfl

/-- Pieces of one length are the same all together exactly if each of them is. -/
theorem flatMap_spelt_eq_iff (pieces : List Piece) :
    pieces.flatMap Piece.spelt = pieces.flatMap Piece.linked ↔ ∀ p ∈ pieces, p.spelt = p.linked := by
  induction pieces with
  | nil => simp
  | cons p pieces ih =>
    rw [List.flatMap_cons, List.flatMap_cons, List.forall_mem_cons, ← ih]
    constructor
    · exact fun h => List.append_inj h p.length_spelt
    · rintro ⟨hp, hrest⟩
      rw [hp, hrest]

/-- Code that is not linked yet is read whatever its placeholders, and each as 20 bytes. It is read with the
    zero address for all of them exactly if none has a hex digit but zeros; other digits are read as
    what they are. -/
theorem readCode_eq_linked_iff {before mark after : List Char} (pieces : List Piece)
    (hbefore : ∀ c ∈ before, Text.isBlank c = true) (hmark : mark = [] ∨ mark = ['0', 'x'])
    (hafter : ∀ c ∈ after, Text.isBlank c = true) :
    let code := String.ofList (before ++ (mark ++ pieces.flatMap Piece.text) ++ after)
    readCode code = .ok (pieces.flatMap Piece.spelt) ∧
      (readCode code = .ok (pieces.flatMap Piece.linked) ↔
        ∀ p, .placeholder p ∈ pieces → ∀ c ∈ p.text, ∀ d, Hex.value? c = some d → d = 0) := by
  intro code
  have hsolid : ∀ c ∈ mark ++ pieces.flatMap Piece.text, Text.isBlank c = false := by
    have hmarked : ∀ c ∈ mark, Text.isBlank c = false := by
      refine Text.forall_isBlank_eq_false ?_
      rcases hmark with rfl | rfl <;> rfl
    refine List.forall_mem_append.2 ⟨hmarked, fun c hc => ?_⟩
    obtain ⟨p, _, hc⟩ := List.mem_flatMap.1 hc
    exact Piece.isBlank_of_mem_text hc
  have hdigits : Hex.stripMark (Text.trim code.toList) = pieces.flatMap Piece.text := by
    rw [String.toList_ofList, Text.trim_append hbefore hsolid hafter]
    rcases hmark with rfl | rfl
    · exact stripMark_flatMap_text pieces
    · rfl
  have hread : readCode code = .ok (pieces.flatMap Piece.spelt) := by
    rw [readCode_of_even hdigits (length_flatMap_text_even pieces), pairBytes_flatMap_text]
  refine ⟨hread, ?_⟩
  rw [hread, Except.ok.injEq, flatMap_spelt_eq_iff]
  constructor
  · exact fun h p hp => (Piece.spelt_placeholder_eq_iff p).1 (h _ hp)
  · intro h p hp
    cases p with
    | byte high low => exact Piece.spelt_byte high low
    | placeholder p => exact (Piece.spelt_placeholder_eq_iff p).2 (h p hp)

/-- The hex digits of a text. -/
def hexDigits (text : String) : List HexDigit :=
  text.toList.filterMap fun c => if h : (Hex.value? c).isSome then some ⟨c, h⟩ else none

/-- Code that pushes the address of a library and stops. -/
def pushingPieces (library : Placeholder) : List Piece :=
  [.byte ⟨'7', rfl⟩ ⟨'3', rfl⟩, .placeholder library, .byte ⟨'0', rfl⟩ ⟨'0', rfl⟩]

theorem mem_pushingPieces {p library : Placeholder} (h : .placeholder p ∈ pushingPieces library) :
    p = library := by
  simpa [pushingPieces] using h

/-- A library whose name has no letter that is a hex digit. -/
def poolLibrary : Placeholder := .name "Pool".toList (by decide) (Text.forall_isBlank_eq_false rfl)

theorem readCode_eq_linked_iff_pool :
    readCode " 0x73__Pool__________________________________00" =
      .ok (0x73 :: List.replicate 20 0 ++ [0x00]) := by
  have hblank : ∀ c ∈ [' '], Text.isBlank c = true := List.all_eq_true.1 rfl
  have hdigits : ∀ c ∈ poolLibrary.text, ∀ d, Hex.value? c = some d → d = 0 := by
    have hall : poolLibrary.text.all (Hex.digitValue · == 0) = true := by decide
    exact fun c hc => Hex.digitValue_eq_zero_iff.1 (beq_iff_eq.1 (List.all_eq_true.1 hall c hc))
  obtain ⟨-, hlinked⟩ :=
    readCode_eq_linked_iff (pushingPieces poolLibrary) hblank (.inr rfl) (List.forall_mem_nil _)
  refine hlinked.2 fun p hp => ?_
  rw [mem_pushingPieces hp]
  exact hdigits

/-- A library by its hash. -/
def hashedLibrary : Placeholder := .hash (hexDigits "d8a7c1a1b3e2f5c6d7e8f9a0b1c2d3e4f5") (by decide)

/-- The digits of a hash are read into the address. -/
theorem not_forall_readCode_linked :
    ¬ ∀ pieces : List Piece,
        readCode (String.ofList ('0' :: 'x' :: pieces.flatMap Piece.text)) =
          .ok (pieces.flatMap Piece.linked) := by
  intro h
  have hread : (readCode (String.ofList
      ('0' :: 'x' :: (pushingPieces hashedLibrary).flatMap Piece.text))).toOption ≠
        some ((pushingPieces hashedLibrary).flatMap Piece.linked) := by
    decide +kernel
  exact hread (congrArg Except.toOption (h (pushingPieces hashedLibrary)))

end Artifact

end TxTrace

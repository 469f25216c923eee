import Mathlib.Algebra.Ring.Nat
import Mathlib.Data.Fin.Basic
import TxTrace.Abi.Decode
import TxTrace.Abi.Encode
import TxTrace.Result
import TxTrace.Word.Lemmas

/-!
Where the parts of an encoding stand. A byte string that stands in data is read back from there, and
in a sequence that was laid out each head entry leads to the encoding of its member
(`Laid.readMember`).
-/

namespace TxTrace

namespace Bytes

/-- The bytes `bs` are those of `data` from `pos` on. -/
def StandsAt (data : Bytes) (pos : Nat) (bs : Bytes) : Prop :=
  ∃ before after, data = before ++ (bs ++ after) ∧ before.length = pos

variable {data xs ys : Bytes} {pos : Nat}

theorem standsAt_zero (data : Bytes) : StandsAt data 0 data :=
  ⟨[], [], by simp, rfl⟩

theorem StandsAt.left (h : StandsAt data pos (xs ++ ys)) : StandsAt data pos xs := by
  obtain ⟨before, after, hdata, hpos⟩ := h
  exact ⟨before, ys ++ after, by rw [hdata, List.append_assoc], hpos⟩

theorem StandsAt.right (h : StandsAt data pos (xs ++ ys)) : StandsAt data (pos + xs.length) ys := by
  obtain ⟨before, after, hdata, hpos⟩ := h
  exact ⟨before ++ xs, after, by simp [hdata], by simp [hpos]⟩

theorem StandsAt.le_length (h : StandsAt data pos xs) : pos + xs.length ≤ data.length := by
  obtain ⟨before, after, hdata, hpos⟩ := h
  rw [hdata, List.length_append, List.length_append, hpos]
  omega

theorem StandsAt.slice? (h : StandsAt data pos xs) : data.slice? pos xs.length = some xs := by
  have hle := h.le_length
  obtain ⟨before, after, hdata, hpos⟩ := h
  rw [Bytes.slice?, if_pos hle, hdata, ← hpos, List.drop_left, List.take_left]

end Bytes

namespace Abi

open Bytes (StandsAt)

variable {data : Bytes} {pos : Nat}

/-! ### Reads -/

theorem readBytes_of_standsAt {bs : Bytes} (h : StandsAt data pos bs) :
    readBytes data pos bs.length = .ok bs := by
  rw [readBytes, h.slice?]

theorem readWord_of_standsAt {w : Word} (h : StandsAt data pos w.toBytes) :
    readWord data pos = .ok w := by
  have hread := readBytes_of_standsAt h
  rw [Word.length_toBytes] at hread
  rw [readWord, hread, Except.map, Word.ofBytes_toBytes]

@[simp]
theorem length_sizeWord (n : Nat) : (sizeWord n).length = 32 := Bytes.length_ofNat 32 n

theorem toNat_sizeWord {n : Nat} (hn : n ≤ max64) : (BitVec.ofNat 256 n).toNat = n := by
  have hlt : n < 2 ^ 256 := Nat.lt_of_le_of_lt hn (by decide)
  rw [BitVec.toNat_ofNat, Nat.mod_eq_of_lt hlt]

theorem readWord_of_sizeWord {n : Nat} (hn : n ≤ max64) (h : StandsAt data pos (sizeWord n)) :
    readWord data pos = .ok (BitVec.ofNat 256 n) := by
  have hword : sizeWord n = Word.toBytes (BitVec.ofNat 256 n) := by
    rw [sizeWord, Word.toBytes, toNat_sizeWord hn]
  rw [hword] at h
  exact readWord_of_standsAt h

theorem readSize_of_standsAt {n : Nat} (hn : n ≤ max64) (h : StandsAt data pos (sizeWord n)) :
    readSize data pos = .ok n := by
  rw [readSize, readWord_of_sizeWord hn h, ok_bind, toNat_sizeWord hn, if_pos hn]
  rfl

theorem readLengthPrefixed_of_standsAt {bs : Bytes} (hdata : data.length ≤ max64)
    (h : StandsAt data pos (lengthPrefixed bs)) : readLengthPrefixed data pos = .ok bs := by
  have hbody : StandsAt data (pos + 32) bs := by
    have hright := h.right
    rw [length_sizeWord] at hright
    exact hright.left
  have hlen : bs.length ≤ max64 := by
    have hle := hbody.le_length
    omega
  rw [readLengthPrefixed, readSize_of_standsAt hlen h.left, ok_bind]
  exact readBytes_of_standsAt hbody

/-! ### Layouts -/

/-- The bytes that a member takes in the head. -/
def Piece.headSize (p : Piece) : Nat := if p.isDynamic then 32 else p.content.length

theorem layoutFrom_of_isDynamic {p : Piece} (hp : p.isDynamic = true) (offset : Nat)
    (ps : List Piece) :
    layoutFrom offset (p :: ps) =
      (sizeWord offset ++ (layoutFrom (offset + p.content.length) ps).1,
        p.content ++ (layoutFrom (offset + p.content.length) ps).2) := by
  rw [layoutFrom, if_pos hp]

theorem layoutFrom_of_not_isDynamic {p : Piece} (hp : p.isDynamic = false) (offset : Nat)
    (ps : List Piece) :
    layoutFrom offset (p :: ps) =
      (p.content ++ (layoutFrom offset ps).1, (layoutFrom offset ps).2) := by
  rw [layoutFrom, if_neg (by simp [hp])]

/-- The length of the head does not depend on the offsets in it. -/
theorem length_head_layoutFrom (offset : Nat) (ps : List Piece) :
    (layoutFrom offset ps).1.length = (ps.map Piece.headSize).sum := by
  induction ps generalizing offset with
  | nil => rfl
  | cons p ps ih =>
    rw [List.map_cons, List.sum_cons, Piece.headSize]
    cases hp : p.isDynamic with
    | true => rw [layoutFrom_of_isDynamic hp, List.length_append, length_sizeWord, ih, if_pos rfl]
    | false =>
      rw [layoutFrom_of_not_isDynamic hp, List.length_append, ih, if_neg Bool.false_ne_true]

theorem tail_layoutFrom_of_static {ps : List Piece} (hps : ∀ p ∈ ps, p.isDynamic = false)
    (offset : Nat) : (layoutFrom offset ps).2 = [] := by
  induction ps with
  | nil => rfl
  | cons p ps ih =>
    rw [layoutFrom_of_not_isDynamic (hps p List.mem_cons_self)]
    exact ih fun q hq => hps q (List.mem_cons_of_mem p hq)

/-- The members `ps` of a sequence, the head of which starts at `base`, stand in the data: the rest of
    the head at `cursor`, the rest of the tail `offset` bytes after the start. -/
structure Laid (data : Bytes) (base cursor offset : Nat) (ps : List Piece) : Prop where
  head : StandsAt data cursor (layoutFrom offset ps).1
  tail : StandsAt data (base + offset) (layoutFrom offset ps).2

theorem laid_of_standsAt {size : Nat} {ps : List Piece}
    (hsize : min size max64 = (ps.map Piece.headSize).sum) (h : StandsAt data pos (layout size ps)) :
    Laid data pos pos (min size max64) ps := by
  refine ⟨h.left, ?_⟩
  have htail := h.right
  rw [length_head_layoutFrom, ← hsize] at htail
  exact htail

namespace Laid

variable {base cursor offset : Nat} {p : Piece} {ps : List Piece}

/-- The first member is read where its encoding stands. -/
theorem readMember {α : Type} (h : Laid data base cursor offset (p :: ps))
    (hdata : data.length ≤ max64) (read : Nat → Except DecodeError α) :
    ∃ at_, StandsAt data at_ p.content ∧
      readMember read p.isDynamic data base cursor = read at_ := by
  obtain ⟨hhead, htail⟩ := h
  cases hp : p.isDynamic with
  | true =>
    rw [layoutFrom_of_isDynamic hp] at hhead htail
    have hoffset : base + offset ≤ max64 := by
      have hle := htail.le_length
      omega
    refine ⟨base + offset, htail.left, ?_⟩
    unfold Abi.readMember
    rw [if_pos rfl, readSize_of_standsAt (by omega) hhead.left, ok_bind, if_pos hoffset]
  | false =>
    rw [layoutFrom_of_not_isDynamic hp] at hhead
    exact ⟨cursor, hhead.left, rfl⟩

/-- The other members stand behind it. -/
theorem rest (h : Laid data base cursor offset (p :: ps)) (hdata : data.length ≤ max64) :
    ∃ offset', Laid data base (advance cursor p.headSize) offset' ps := by
  obtain ⟨hhead, htail⟩ := h
  have hadvance : ∀ {n : Nat} {bs : Bytes}, StandsAt data (cursor + n) bs →
      advance cursor n = cursor + n := by
    intro n bs hbs
    have hle := hbs.le_length
    rw [advance, Nat.min_eq_left (by omega)]
  cases hp : p.isDynamic with
  | true =>
    rw [layoutFrom_of_isDynamic hp] at hhead htail
    have hsize : p.headSize = 32 := if_pos hp
    have hnext := hhead.right
    rw [length_sizeWord] at hnext
    refine ⟨offset + p.content.length, ?_, ?_⟩
    · rw [hsize, hadvance hnext]
      exact hnext
    · rw [← Nat.add_assoc]
      exact htail.right
  | false =>
    rw [layoutFrom_of_not_isDynamic hp] at hhead htail
    have hsize : p.headSize = p.content.length := if_neg (by simp [hp])
    refine ⟨offset, ?_, htail⟩
    rw [hsize, hadvance hhead.right]
    exact hhead.right

end Laid

end Abi

end TxTrace

import TxTrace.Text.Utf8

/-!
Reading the bytes of a text gives back the text (`ofUtf8Lossy_utf8`): the reader completes each
character with its last byte and stands between characters again. No character but those of one byte
has a byte below 0x80 (`toNat_val_of_mem_utf8EncodeChar`).
-/

namespace TxTrace.Text

theorem not_lt_of_toNat_le {b c : UInt8} {n : Nat} (hb : n ≤ b.toNat) (hc : c.toNat ≤ n) :
    ¬ b < c := by
  rw [UInt8.lt_iff_toNat_lt]
  omega

namespace Utf8State

variable {b : UInt8}

theorem first_of_lt_80 (h : b.toNat < 0x80) : first b = ([Char.ofNat b.toNat], between) := by
  have hlt : b < 0x80 := UInt8.lt_iff_toNat_lt.2 h
  unfold first
  rw [if_pos hlt]

theorem first_of_lt_e0 (hlow : 0xC2 ≤ b.toNat) (hhigh : b.toNat < 0xE0) :
    first b = ([], inside 0 0x80 0xBF (b.toNat - 0xC0)) := by
  have h80 : ¬ b < 0x80 := not_lt_of_toNat_le hlow (by decide)
  have hc2 : ¬ b < 0xC2 := not_lt_of_toNat_le hlow (by decide)
  have he0 : b < 0xE0 := UInt8.lt_iff_toNat_lt.2 hhigh
  unfold first
  rw [if_neg h80, if_neg hc2, if_pos he0]

theorem first_of_lt_f0 (hlow : 0xE0 ≤ b.toNat) (hhigh : b.toNat < 0xF0) :
    first b = ([], inside 1 (if b = 0xE0 then 0xA0 else 0x80) (if b = 0xED then 0x9F else 0xBF)
      (b.toNat - 0xE0)) := by
  have h80 : ¬ b < 0x80 := not_lt_of_toNat_le hlow (by decide)
  have hc2 : ¬ b < 0xC2 := not_lt_of_toNat_le hlow (by decide)
  have he0 : ¬ b < 0xE0 := not_lt_of_toNat_le hlow (by decide)
  have hf0 : b < 0xF0 := UInt8.lt_iff_toNat_lt.2 hhigh
  unfold first
  rw [if_neg h80, if_neg hc2, if_neg he0, if_pos hf0]

theorem first_of_lt_f5 (hlow : 0xF0 ≤ b.toNat) (hhigh : b.toNat < 0xF5) :
    first b = ([], inside 2 (if b = 0xF0 then 0x90 else 0x80) (if b = 0xF4 then 0x8F else 0xBF)
      (b.toNat - 0xF0)) := by
  have h80 : ¬ b < 0x80 := not_lt_of_toNat_le hlow (by decide)
  have hc2 : ¬ b < 0xC2 := not_lt_of_toNat_le hlow (by decide)
  have he0 : ¬ b < 0xE0 := not_lt_of_toNat_le hlow (by decide)
  have hf0 : ¬ b < 0xF0 := not_lt_of_toNat_le hlow (by decide)
  have hf5 : b < 0xF5 := UInt8.lt_iff_toNat_lt.2 hhigh
  unfold first
  rw [if_neg h80, if_neg hc2, if_neg he0, if_neg hf0, if_pos hf5]

end Utf8State

open Utf8State

/-- The byte of a character that holds the lowest six bits of `n`. -/
def trailByte (n : Nat) : UInt8 := UInt8.ofNat (n % 0x40 + 0x80)

theorem toNat_trailByte (n : Nat) : (trailByte n).toNat = n % 0x40 + 0x80 := by
  rw [trailByte, UInt8.toNat_ofNat', Nat.mod_eq_of_lt]
  omega

/-- The last byte of a character completes it. -/
theorem readUtf8_last {low high : UInt8} {bits n : Nat} (hlow : low.toNat ≤ n % 0x40 + 0x80)
    (hhigh : n % 0x40 + 0x80 ≤ high.toNat) (bs : Bytes) :
    readUtf8 (.inside 0 low high bits) (trailByte n :: bs) =
      Char.ofNat (bits * 64 + n % 0x40) :: readUtf8 .between bs := by
  have hin : low ≤ trailByte n ∧ trailByte n ≤ high := by
    rw [UInt8.le_iff_toNat_le, UInt8.le_iff_toNat_le, toNat_trailByte]
    exact ⟨hlow, hhigh⟩
  simp only [readUtf8, step, if_pos hin, toNat_trailByte, Nat.add_sub_cancel]
  rfl

/-- Any other byte of a character is kept for those after it. -/
theorem readUtf8_more {low high : UInt8} {more bits n : Nat} (hlow : low.toNat ≤ n % 0x40 + 0x80)
    (hhigh : n % 0x40 + 0x80 ≤ high.toNat) (bs : Bytes) :
    readUtf8 (.inside (more + 1) low high bits) (trailByte n :: bs) =
      readUtf8 (.inside more 0x80 0xBF (bits * 64 + n % 0x40)) bs := by
  have hin : low ≤ trailByte n ∧ trailByte n ≤ high := by
    rw [UInt8.le_iff_toNat_le, UInt8.le_iff_toNat_le, toNat_trailByte]
    exact ⟨hlow, hhigh⟩
  simp only [readUtf8, step, if_pos hin, toNat_trailByte, Nat.add_sub_cancel]
  rfl

theorem toNat_80_le (n : Nat) : (0x80 : UInt8).toNat ≤ n % 0x40 + 0x80 := Nat.le_add_left _ _

theorem le_toNat_bf (n : Nat) : n % 0x40 + 0x80 ≤ (0xBF : UInt8).toNat := by
  show n % 0x40 + 0x80 ≤ 0xBF
  omega

theorem toNat_lead {n lead : Nat} (h : n + lead < 256) : (UInt8.ofNat (n + lead)).toNat = n + lead := by
  rw [UInt8.toNat_ofNat', Nat.mod_eq_of_lt h]

theorem toNat_eq_of_eq {b c : UInt8} {n : Nat} (hb : b.toNat = n) (h : b = c) : n = c.toNat := by
  rw [← hb, h]

theorem readUtf8_one {n : Nat} (h : n ≤ 0x7F) (bs : Bytes) :
    readUtf8 .between (UInt8.ofNat n :: bs) = Char.ofNat n :: readUtf8 .between bs := by
  have hlead : (UInt8.ofNat n).toNat = n := by
    rw [UInt8.toNat_ofNat', Nat.mod_eq_of_lt (by omega)]
  have hfirst := first_of_lt_80 (b := UInt8.ofNat n) (by omega)
  rw [hlead] at hfirst
  rw [readUtf8, step, hfirst]
  rfl

theorem readUtf8_two {n : Nat} (hlow : 0x80 ≤ n) (hhigh : n ≤ 0x7FF) (bs : Bytes) :
    readUtf8 .between (UInt8.ofNat (n / 64 % 0x20 + 0xC0) :: trailByte n :: bs) =
      Char.ofNat n :: readUtf8 .between bs := by
  have hlead : (UInt8.ofNat (n / 64 % 0x20 + 0xC0)).toNat = n / 64 % 0x20 + 0xC0 :=
    toNat_lead (by omega)
  have hbits : n / 64 * 64 + n % 0x40 = n := by omega
  have hfirst := first_of_lt_e0 (b := UInt8.ofNat (n / 64 % 0x20 + 0xC0)) (by omega) (by omega)
  have hsub : n / 64 % 0x20 + 0xC0 - 0xC0 = n / 64 := by omega
  rw [hlead, hsub] at hfirst
  rw [readUtf8, step, hfirst, List.nil_append]
  dsimp only
  rw [readUtf8_last (toNat_80_le n) (le_toNat_bf n), hbits]

/-- A character of three bytes is neither written longer than it needs to be nor a surrogate. -/
theorem readUtf8_three {n : Nat} (hlow : 0x800 ≤ n) (hhigh : n ≤ 0xFFFF)
    (hvalid : n < 0xD800 ∨ 0xDFFF < n) (bs : Bytes) :
    readUtf8 .between (UInt8.ofNat (n / 4096 % 0x10 + 0xE0) :: trailByte (n / 64) :: trailByte n :: bs) =
      Char.ofNat n :: readUtf8 .between bs := by
  have hlead : (UInt8.ofNat (n / 4096 % 0x10 + 0xE0)).toNat = n / 4096 % 0x10 + 0xE0 :=
    toNat_lead (by omega)
  have hbits : (n / 4096 * 64 + n / 64 % 0x40) * 64 + n % 0x40 = n := by omega
  have hfirst := first_of_lt_f0 (b := UInt8.ofNat (n / 4096 % 0x10 + 0xE0)) (by omega) (by omega)
  have hsub : n / 4096 % 0x10 + 0xE0 - 0xE0 = n / 4096 := by omega
  rw [hlead, hsub] at hfirst
  have hlong : (if UInt8.ofNat (n / 4096 % 0x10 + 0xE0) = 0xE0 then (0xA0 : UInt8) else 0x80).toNat ≤
      n / 64 % 0x40 + 0x80 := by
    split
    · next heq =>
      have hzero : n / 4096 % 0x10 + 0xE0 = 0xE0 := toNat_eq_of_eq hlead heq
      show 0xA0 ≤ n / 64 % 0x40 + 0x80
      omega
    · exact toNat_80_le _
  have hsurrogate : n / 64 % 0x40 + 0x80 ≤
      (if UInt8.ofNat (n / 4096 % 0x10 + 0xE0) = 0xED then (0x9F : UInt8) else 0xBF).toNat := by
    split
    · next heq =>
      have hed : n / 4096 % 0x10 + 0xE0 = 0xED := toNat_eq_of_eq hlead heq
      show n / 64 % 0x40 + 0x80 ≤ 0x9F
      omega
    · exact le_toNat_bf _
  rw [readUtf8, step, hfirst, List.nil_append]
  dsimp only
  rw [readUtf8_more hlong hsurrogate, readUtf8_last (toNat_80_le n) (le_toNat_bf n), hbits]

/-- A character of four bytes is neither written longer than it needs to be nor past the last one. -/
theorem readUtf8_four {n : Nat} (hlow : 0x10000 ≤ n) (hhigh : n < 0x110000) (bs : Bytes) :
    readUtf8 .between (UInt8.ofNat (n / 262144 % 0x08 + 0xF0) :: trailByte (n / 4096) ::
        trailByte (n / 64) :: trailByte n :: bs) =
      Char.ofNat n :: readUtf8 .between bs := by
  have hlead : (UInt8.ofNat (n / 262144 % 0x08 + 0xF0)).toNat = n / 262144 % 0x08 + 0xF0 :=
    toNat_lead (by omega)
  have hbits : ((n / 262144 * 64 + n / 4096 % 0x40) * 64 + n / 64 % 0x40) * 64 + n % 0x40 = n := by
    omega
  have hfirst := first_of_lt_f5 (b := UInt8.ofNat (n / 262144 % 0x08 + 0xF0)) (by omega) (by omega)
  have hsub : n / 262144 % 0x08 + 0xF0 - 0xF0 = n / 262144 := by omega
  rw [hlead, hsub] at hfirst
  have hlong :
      (if UInt8.ofNat (n / 262144 % 0x08 + 0xF0) = 0xF0 then (0x90 : UInt8) else 0x80).toNat ≤
        n / 4096 % 0x40 + 0x80 := by
    split
    · next heq =>
      have hzero : n / 262144 % 0x08 + 0xF0 = 0xF0 := toNat_eq_of_eq hlead heq
      show 0x90 ≤ n / 4096 % 0x40 + 0x80
      omega
    · exact toNat_80_le _
  have hlast : n / 4096 % 0x40 + 0x80 ≤
      (if UInt8.ofNat (n / 262144 % 0x08 + 0xF0) = 0xF4 then (0x8F : UInt8) else 0xBF).toNat := by
    split
    · next heq =>
      have hf4 : n / 262144 % 0x08 + 0xF0 = 0xF4 := toNat_eq_of_eq hlead heq
      show n / 4096 % 0x40 + 0x80 ≤ 0x8F
      omega
    · exact le_toNat_bf _
  rw [readUtf8, step, hfirst, List.nil_append]
  dsimp only
  rw [readUtf8_more hlong hlast, readUtf8_more (toNat_80_le _) (le_toNat_bf _),
    readUtf8_last (toNat_80_le n) (le_toNat_bf n), hbits]

theorem readUtf8_utf8EncodeChar (c : Char) (bs : Bytes) :
    readUtf8 .between (String.utf8EncodeChar c ++ bs) = c :: readUtf8 .between bs := by
  have hself : Char.ofNat c.val.toNat = c := Char.ofNat_toNat c
  have hvalid : c.val.toNat < 0xD800 ∨ 0xDFFF < c.val.toNat ∧ c.val.toNat < 0x110000 := c.valid
  unfold String.utf8EncodeChar
  dsimp only
  split
  · next h1 =>
    have hread := readUtf8_one h1 bs
    rw [hself] at hread
    exact hread
  · next h1 =>
    split
    · next h2 =>
      have hread := readUtf8_two (by omega) h2 bs
      rw [hself] at hread
      exact hread
    · next h2 =>
      split
      · next h3 =>
        have hread := readUtf8_three (by omega) h3 (by omega) bs
        rw [hself] at hread
        exact hread
      · next h3 =>
        have hread := readUtf8_four (n := c.val.toNat) (by omega) (by omega) bs
        rw [hself] at hread
        exact hread

theorem ofUtf8Lossy_utf8 (s : String) : ofUtf8Lossy (utf8 s) = s := by
  have hread : ∀ l : List Char, readUtf8 .between (l.flatMap String.utf8EncodeChar) = l := by
    intro l
    induction l with
    | nil => rfl
    | cons c l ih => rw [List.flatMap_cons, readUtf8_utf8EncodeChar, ih]
  rw [ofUtf8Lossy, utf8, hread, String.ofList_toList]

theorem utf8EncodeChar_of_lt {c : Char} (h : c.toNat < 0x80) :
    String.utf8EncodeChar c = [UInt8.ofNat c.toNat] := by
  have hle : c.val.toNat ≤ 0x7F := Nat.le_of_lt_succ h
  rw [String.utf8EncodeChar]
  exact if_pos hle

/-- A byte below 0x80 is a character of its own: the bytes of all other characters are above. -/
theorem toNat_val_of_mem_utf8EncodeChar {c : Char} {b : UInt8} (h : b ∈ String.utf8EncodeChar c)
    (hb : b.toNat < 0x80) : c.val.toNat = b.toNat := by
  have hne : ∀ n : Nat, 0x80 ≤ n % 256 → b ≠ UInt8.ofNat n := by
    rintro n hn rfl
    rw [UInt8.toNat_ofNat'] at hb
    omega
  unfold String.utf8EncodeChar at h
  dsimp only at h
  split at h
  · next h1 => rw [List.mem_singleton.1 h, UInt8.toNat_ofNat', Nat.mod_eq_of_lt (by omega)]
  · exfalso
    split at h
    · simp only [List.mem_cons, List.not_mem_nil, or_false] at h
      rcases h with h | h <;> exact hne _ (by omega) h
    · split at h
      · simp only [List.mem_cons, List.not_mem_nil, or_false] at h
        rcases h with h | h | h <;> exact hne _ (by omega) h
      · simp only [List.mem_cons, List.not_mem_nil, or_false] at h
        rcases h with h | h | h | h <;> exact hne _ (by omega) h

end TxTrace.Text

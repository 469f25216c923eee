/-!
Byte strings, and the big-endian numbers in them. `getElem?_window` says what a window of a byte
string holds: zeros past its end.
-/

namespace TxTrace

/-- A byte string, first byte first. -/
abbrev Bytes := List UInt8

namespace Bytes

/-- The number whose big-endian digits to base 256 are the bytes of `bs`. -/
def toNat (bs : Bytes) : Nat :=
  bs.foldl (fun n b => n * 256 + b.toNat) 0

/-- The last `k` big-endian digits to base 256 of `n`. -/
def ofNat : (k : Nat) → (n : Nat) → Bytes
  | 0, _ => []
  | k + 1, n => ofNat k (n / 256) ++ [UInt8.ofNat n]

@[simp]
theorem length_ofNat (k n : Nat) : (ofNat k n).length = k := by
  induction k generalizing n with
  | zero => rfl
  | succ k ih => simp [ofNat, ih]

@[simp]
theorem toNat_nil : toNat [] = 0 := rfl

@[simp]
theorem toNat_concat (bs : Bytes) (b : UInt8) : toNat (bs ++ [b]) = toNat bs * 256 + b.toNat := by
  simp [toNat]

/-- The `len` bytes of `bs` from position `pos`, when all of them are there. -/
def slice? (bs : Bytes) (pos len : Nat) : Option Bytes :=
  if pos + len ≤ bs.length then some ((bs.drop pos).take len) else none

/-- The `len` bytes of `bs` from position `pos`, with zeros past the end. -/
def window (bs : Bytes) (pos len : Nat) : Bytes :=
  let present := (bs.drop pos).take len
  present ++ List.replicate (len - present.length) 0

@[simp]
theorem length_window (bs : Bytes) (pos len : Nat) : (window bs pos len).length = len := by
  simp only [window, List.length_append, List.length_replicate, List.length_take, List.length_drop]
  omega

/-- Byte `k` of a window is byte `pos + k` of the string, or zero past its end. -/
theorem getElem?_window (bs : Bytes) (pos len k : Nat) (hk : k < len) :
    (window bs pos len)[k]? = some (bs[pos + k]?.getD 0) := by
  simp only [window, List.getElem?_append, List.length_take, List.length_drop]
  split
  · next h =>
    rw [List.getElem?_take_of_lt (by omega), List.getElem?_drop]
    rw [List.getElem?_eq_getElem (by omega)]
    rfl
  · next h =>
    rw [List.getElem?_replicate_of_lt (by omega), List.getElem?_eq_none (by omega)]
    rfl

/-- Zeros appended up to the next multiple of 32 bytes. -/
def padRight (bs : Bytes) : Bytes :=
  bs ++ List.replicate ((32 - bs.length % 32) % 32) 0

theorem length_padRight (bs : Bytes) :
    (padRight bs).length = bs.length + (32 - bs.length % 32) % 32 := by
  simp [padRight]

theorem dvd_length_padRight (bs : Bytes) : 32 ∣ (padRight bs).length := by
  rw [length_padRight]
  omega

end Bytes

end TxTrace

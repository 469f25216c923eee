import Mathlib.Algebra.Group.Nat.Defs
import TxTrace.Bytes

/-!
The numbers in byte strings. `toNat_ofNat` says that `k` bytes hold a number modulo `256 ^ k`, and
`ofNat_toNat` that nothing is lost the other way.
-/

namespace TxTrace.Bytes

theorem toNat_ofNat (k n : Nat) : toNat (ofNat k n) = n % 256 ^ k := by
  induction k generalizing n with
  | zero => simp [ofNat, Nat.mod_one]
  | succ k ih =>
    rw [ofNat, toNat_concat, ih, Nat.pow_succ', Nat.mod_mul]
    simp
    omega

theorem ofNat_toNat (bs : Bytes) : ofNat bs.length (toNat bs) = bs := by
  induction hk : bs.length generalizing bs with
  | zero => rw [List.length_eq_zero_iff.1 hk]; rfl
  | succ k ih =>
    have hne : bs ≠ [] := by intro h; simp [h] at hk
    have hlen : bs.dropLast.length = k := by simp [hk]
    rw [← List.dropLast_concat_getLast hne, ofNat, toNat_concat]
    have hlast := (bs.getLast hne).toNat_lt
    have hdiv : (toNat bs.dropLast * 256 + (bs.getLast hne).toNat) / 256 = toNat bs.dropLast := by
      omega
    have hmod : UInt8.ofNat (toNat bs.dropLast * 256 + (bs.getLast hne).toNat) = bs.getLast hne := by
      apply UInt8.toNat_inj.1
      simp
    rw [hdiv, hmod, ih _ hlen]

/-- A byte string of `k` bytes is below `256 ^ k`. -/
theorem toNat_lt (bs : Bytes) : toNat bs < 256 ^ bs.length := by
  have h := toNat_ofNat bs.length (toNat bs)
  rw [ofNat_toNat] at h
  rw [h]
  exact Nat.mod_lt _ (Nat.pow_pos (by decide))

end TxTrace.Bytes

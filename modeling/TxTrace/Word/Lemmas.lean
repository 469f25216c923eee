import TxTrace.Bytes.Lemmas
import TxTrace.Word

/-!
The byte forms of words, addresses and selectors lose nothing: `ofBytes` and `toBytes` undo each other.
-/

namespace TxTrace

namespace Word

@[simp]
theorem ofBytes_toBytes (w : Word) : ofBytes w.toBytes = w := by
  apply BitVec.eq_of_toNat_eq
  rw [ofBytes, toBytes, Bytes.toNat_ofNat, BitVec.toNat_ofNat]
  have := w.isLt
  omega

theorem toBytes_ofBytes {bs : Bytes} (h : bs.length = 32) : (ofBytes bs).toBytes = bs := by
  have hlt := Bytes.toNat_lt bs
  rw [h] at hlt
  rw [toBytes, ofBytes, BitVec.toNat_ofNat, Nat.mod_eq_of_lt (by simpa using hlt), ← h,
    Bytes.ofNat_toNat]

end Word

namespace Address

@[simp]
theorem length_toBytes (a : Address) : a.toBytes.length = 20 := by
  simp [toBytes]

@[simp]
theorem ofBytes?_toBytes (a : Address) : ofBytes? a.toBytes = some a := by
  simp only [ofBytes?, length_toBytes, if_true, Option.some.injEq]
  apply BitVec.eq_of_toNat_eq
  rw [toBytes, Bytes.toNat_ofNat, BitVec.toNat_ofNat]
  have := a.isLt
  omega

end Address

namespace Selector

@[simp]
theorem ofBytes?_toBytes (s : Selector) : ofBytes? s.toBytes = some s := by
  simp only [ofBytes?, length_toBytes, if_true, Option.some.injEq]
  apply BitVec.eq_of_toNat_eq
  rw [toBytes, Bytes.toNat_ofNat, BitVec.toNat_ofNat]
  have := s.isLt
  omega

@[simp]
theorem ofPayload?_append (s : Selector) (rest : Bytes) :
    ofPayload? (s.toBytes ++ rest) = some s := by
  rw [ofPayload?, List.take_left' (length_toBytes s), ofBytes?_toBytes]

end Selector

end TxTrace

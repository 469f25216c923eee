import TxTrace.Trace.Step

/-!
What a read of memory gives: the bytes of the region, those past the captured memory being zero, unless
the region cannot be read.
-/

namespace TxTrace.Step

variable {s : Step} {offset len : Word}

/-- The byte of memory at a position. Zeros follow what was captured. -/
def byteAt (s : Step) (pos : Nat) : UInt8 := (s.memory.getD [])[pos]?.getD 0

/-- The bytes of memory from `pos` on. -/
def memorySlice (s : Step) (pos len : Nat) : Bytes :=
  (List.range len).map fun k => s.byteAt (pos + k)

/-- A region of memory can be read: it is empty, or memory was captured and the region is not absurdly
    large and lies in 64 bits. -/
def CanRead (s : Step) (offset len : Word) : Prop :=
  len = 0 ∨ s.memory.isSome ∧ len.toNat ≤ maxMemoryRead ∧ offset.toNat + len.toNat ≤ max64

instance (s : Step) (offset len : Word) : Decidable (s.CanRead offset len) :=
  inferInstanceAs (Decidable (_ ∨ _))

theorem memorySlice_eq_window {memory : Bytes} (hmemory : s.memory = some memory) (pos len : Nat) :
    s.memorySlice pos len = memory.window pos len := by
  apply List.ext_getElem?
  intro k
  by_cases hk : k < len
  · rw [Bytes.getElem?_window memory pos len k hk, memorySlice, List.getElem?_map,
      List.getElem?_range hk, Option.map_some, byteAt, hmemory, Option.getD_some]
  · rw [List.getElem?_eq_none (by simpa [memorySlice] using hk),
      List.getElem?_eq_none (by simpa using hk)]

theorem readMemory_of_canRead (h : s.CanRead offset len) :
    s.readMemory offset len = some (s.memorySlice offset.toNat len.toNat) := by
  unfold readMemory
  split
  · next hzero =>
    subst hzero
    rfl
  · next hne =>
    obtain ⟨hmemory, hlarge, hend⟩ := h.resolve_left hne
    obtain ⟨memory, hsome⟩ := Option.isSome_iff_exists.1 hmemory
    rw [if_neg (Nat.not_lt.2 hlarge), memorySlice_eq_window hsome, hsome]
    exact if_pos hend

theorem readMemory_of_not_canRead (h : ¬ s.CanRead offset len) : s.readMemory offset len = none := by
  obtain ⟨hne, hregion⟩ := not_or.1 h
  unfold readMemory
  rw [if_neg hne]
  split
  · rfl
  · next hlarge =>
    split
    · rfl
    · next memory hsome =>
      have hend : ¬ offset.toNat + len.toNat ≤ max64 := fun hend =>
        hregion ⟨by simp [hsome], Nat.not_lt.1 hlarge, hend⟩
      exact if_neg hend

/-- The bytes of a region of memory, if it can be read. -/
def slice? (s : Step) (offset len : Word) : Option Bytes :=
  if s.CanRead offset len then some (s.memorySlice offset.toNat len.toNat) else none

theorem readMemory_eq_slice? (s : Step) (offset len : Word) :
    s.readMemory offset len = s.slice? offset len := by
  unfold slice?
  split
  · next h => exact readMemory_of_canRead h
  · next h => exact readMemory_of_not_canRead h

end TxTrace.Step

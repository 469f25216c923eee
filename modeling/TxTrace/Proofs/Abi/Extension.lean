import TxTrace.Proofs.Abi.Size

/-!
Decoding does not depend on what follows the values (`decode_append`). The length of data decides only
whether a read fails, so a read that succeeds gives the same in longer data (`Stable`), and data that was
cut short either does not decode or holds the values of the whole.
-/

namespace TxTrace

theorem Bytes.slice?_append {data bs : Bytes} {pos len : Nat} (h : data.slice? pos len = some bs)
    (rest : Bytes) : (data ++ rest).slice? pos len = some bs := by
  unfold slice? at h ⊢
  split at h
  · next hle =>
    have hle' : pos + len ≤ (data ++ rest).length := by
      rw [List.length_append]
      omega
    rw [if_pos hle', ← h, List.drop_append_of_le_length (by omega),
      List.take_append_of_le_length (by rw [List.length_drop]; omega)]
  · cases h

namespace Abi

variable {α β : Type}

/-- What `read` finds in data, it finds in data that goes on after it. -/
structure Stable (read : Bytes → Except DecodeError α) : Prop where
  append : ∀ {data : Bytes} {a : α} (rest : Bytes), read data = .ok a → read (data ++ rest) = .ok a

theorem Stable.const (x : Except DecodeError α) : Stable fun _ => x := ⟨fun _ h => h⟩

theorem Stable.bind {read : Bytes → Except DecodeError α}
    {next : Bytes → α → Except DecodeError β} (hread : Stable read)
    (hnext : ∀ a, Stable fun data => next data a) : Stable fun data => read data >>= next data := by
  constructor
  intro data b rest h
  obtain ⟨a, ha, hb⟩ := bind_eq_ok_iff.1 h
  exact bind_eq_ok_iff.2 ⟨a, hread.append rest ha, (hnext a).append rest hb⟩

/-! ### Reads -/

theorem stable_readBytes (pos len : Nat) : Stable fun data => readBytes data pos len := by
  constructor
  intro data bs rest h
  dsimp only [readBytes] at h ⊢
  split at h
  · next bs' hslice =>
    rw [Bytes.slice?_append hslice rest]
    exact h
  · cases h

theorem stable_readWord (pos : Nat) : Stable fun data => readWord data pos := by
  constructor
  intro data w rest h
  dsimp only [readWord] at h ⊢
  cases hread : readBytes data pos 32 with
  | error cause =>
    rw [hread] at h
    cases h
  | ok bs =>
    have hread' : readBytes (data ++ rest) pos 32 = .ok bs :=
      (stable_readBytes pos 32).append rest hread
    rw [hread', ← hread, h]

theorem stable_readSize (pos : Nat) : Stable fun data => readSize data pos :=
  (stable_readWord pos).bind fun _ => .const _

theorem stable_readLengthPrefixed (pos : Nat) : Stable fun data => readLengthPrefixed data pos :=
  (stable_readSize pos).bind fun len => stable_readBytes (pos + 32) len

theorem stable_readMember {read : Bytes → Nat → Except DecodeError α}
    (hread : ∀ pos, Stable fun data => read data pos) (isDynamic : Bool) (base cursor : Nat) :
    Stable fun data => readMember (read data) isDynamic data base cursor := by
  cases isDynamic with
  | false => exact hread cursor
  | true =>
    refine (stable_readSize cursor).bind fun offset => ?_
    by_cases hle : base + offset ≤ max64
    · simp only [if_pos hle]
      exact hread (base + offset)
    · simp only [if_neg hle]
      exact .const _

/-! ### Values -/

/-- Values of the type are found in longer data where they are found. -/
def StableAt (ty : Ty) : Prop := ∀ pos, Stable fun data => decodeValue ty data pos

theorem stable_decodeMembers {ms : List (Member Ty)} (hms : ∀ m ∈ ms, StableAt m.val)
    (base cursor : Nat) : Stable fun data => decodeMembers ms data base cursor := by
  induction ms generalizing cursor with
  | nil => exact .const (.ok [])
  | cons m ms ih =>
    have hmember := stable_readMember (hms m List.mem_cons_self) m.val.isDynamic base cursor
    have hmembers := ih (fun m' hm' => hms m' (List.mem_cons_of_mem m hm'))
      (advance cursor m.val.headSize)
    exact hmember.bind fun _ => hmembers.bind fun _ => .const _

theorem stable_readRun {elem : Ty} (helem : StableAt elem) (base count cursor : Nat) :
    Stable fun data => readRun (readMember (decodeValue elem data) elem.isDynamic data base)
      elem.headSize count cursor := by
  simp only [readRun_eq_decodeMembers]
  refine (stable_decodeMembers (fun m hm => ?_) base cursor).bind fun _ => .const _
  rw [List.eq_of_mem_replicate hm]
  exact helem

/-- More data leaves more room for the elements of an array. -/
theorem stableAt_array {elem : Ty} (helem : StableAt elem) : StableAt (.array elem) := by
  intro pos
  refine (stable_readSize pos).bind fun count => ⟨fun {data v} rest h => ?_⟩
  dsimp only at h ⊢
  split at h
  · cases h
  · next hroom =>
    have hle : (data.length - (pos + 32)) / max elem.headSize 32 ≤
        ((data ++ rest).length - (pos + 32)) / max elem.headSize 32 := by
      apply Nat.div_le_div_right
      rw [List.length_append]
      omega
    rw [if_neg (by omega)]
    have hitems := stable_readRun helem (pos + 32) count (pos + 32)
    exact (hitems.bind fun items => .const (pure (Value.array items))).append rest h

theorem stableAt_fixedArray {elem : Ty} (helem : StableAt elem) (size : UInt64) :
    StableAt (.fixedArray elem size) := by
  intro pos
  refine ⟨fun {data v} rest h => ?_⟩
  rw [decodeValue] at h ⊢
  split at h
  · cases h
  · next hsize =>
    rw [if_neg hsize]
    have hhead := stable_readBytes pos (elem.headSize * size.toNat)
    have hitems := stable_readRun helem pos size.toNat pos
    exact (hhead.bind fun _ => hitems.bind fun items => .const (pure (Value.fixedArray items))).append rest h

theorem stableAt (ty : Ty) : StableAt ty := by
  induction ty using Ty.induct with
  | address | bool | uint w | int w => exact fun pos => (stable_readWord pos).bind fun _ => .const _
  | fixedBytes w | function => exact fun pos => (stable_readBytes pos 32).bind fun _ => .const _
  | bytes | string => exact fun pos => (stable_readLengthPrefixed pos).bind fun _ => .const _
  | array elem ih => exact stableAt_array ih
  | fixedArray elem size ih => exact stableAt_fixedArray ih size
  | tuple members ih => exact fun pos => (stable_decodeMembers ih pos pos).bind fun _ => .const _

theorem stable_decode (types : List Ty) : Stable (decode types) := by
  refine (stable_decodeMembers (fun m hm => ?_) 0 0).bind fun _ => .const _
  obtain ⟨ty, _, rfl⟩ := List.mem_map.1 hm
  exact stableAt ty

/-- Values that decode are the same whatever follows them, and of data that is cut short all or none of
    them decode. -/
theorem decode_append {types : List Ty} {data : Bytes} {values : List Value}
    (h : decode types data = .ok values) :
    (∀ rest, decode types (data ++ rest) = .ok values) ∧
      ∀ n, (∃ cause, decode types (data.take n) = .error cause) ∨
        decode types (data.take n) = .ok values := by
  refine ⟨fun rest => (stable_decode types).append rest h, fun n => ?_⟩
  cases hcut : decode types (data.take n) with
  | error cause => exact .inl ⟨cause, rfl⟩
  | ok values' =>
    have hwhole := (stable_decode types).append (data.drop n) hcut
    rw [List.take_append_drop, h] at hwhole
    exact .inr hwhole.symm

/-- A byte string and an array of one byte string, the last one not padded. -/
def unpaddedBytes : Bytes :=
  sizeWord 64 ++ sizeWord 128 ++ lengthPrefixed [7] ++
    (sizeWord 1 ++ sizeWord 32 ++ sizeWord 2 ++ [8, 9])

set_option maxRecDepth 2000 in
theorem decode_append_unpadded :
    decode [.bytes, .array .bytes] (unpaddedBytes ++ [10]) =
        .ok [.bytes [7], .array [.bytes [8, 9]]] ∧
      ((∃ cause, decode [.bytes, .array .bytes] (unpaddedBytes.take 225) = .error cause) ∨
        decode [.bytes, .array .bytes] (unpaddedBytes.take 225) =
          .ok [.bytes [7], .array [.bytes [8, 9]]]) := by
  have hdecode : decode [.bytes, .array .bytes] unpaddedBytes =
      .ok [.bytes [7], .array [.bytes [8, 9]]] := rfl
  exact ⟨(decode_append hdecode).1 [10], (decode_append hdecode).2 225⟩

end Abi

end TxTrace

import TxTrace.Abi.Ty.Parser
import TxTrace.Proofs.Abi.Nodes

/-!
What decoding finds. Each node of a decoded value was decoded itself from some position of the data, so
that what holds of every decoded value holds of all its nodes (`each_of_decodeValue`). No array is longer
than the data has words for, but for those whose length the type says and whose elements take no bytes
(`elements_le_of_decode`).
-/

namespace TxTrace.Abi

variable {data : Bytes} {pos base cursor : Nat} {ty elem : Ty} {v : Value}

/-! ### Sequences -/

theorem exists_of_readMember {α : Type} {read : Nat → Except DecodeError α} {isDynamic : Bool} {a : α}
    (h : readMember read isDynamic data base cursor = .ok a) : ∃ pos, read pos = .ok a := by
  unfold readMember at h
  split at h
  · obtain ⟨offset, -, h⟩ := bind_eq_ok_iff.1 h
    split at h
    · exact ⟨base + offset, h⟩
    · cases h
  · exact ⟨cursor, h⟩

theorem forall_of_readRun {α : Type} {read : Nat → Except DecodeError α} {size count : Nat}
    {items : List α} (h : readRun read size count cursor = .ok items) :
    items.length = count ∧ ∀ item ∈ items, ∃ cursor, read cursor = .ok item := by
  induction count generalizing cursor items with
  | zero =>
    obtain rfl := Except.ok.inj h
    simp
  | succ count ih =>
    rw [readRun] at h
    obtain ⟨item, hitem, h⟩ := bind_eq_ok_iff.1 h
    obtain ⟨rest, hrest, h⟩ := bind_eq_ok_iff.1 h
    obtain rfl := Except.ok.inj h
    obtain ⟨hlen, hread⟩ := ih hrest
    exact ⟨by rw [List.length_cons, hlen], List.forall_mem_cons.2 ⟨⟨cursor, hitem⟩, hread⟩⟩

/-- The items of an array are as many as are looked for, and each one was decoded. -/
theorem forall_of_readRun_readMember {size count : Nat} {items : List Value}
    (h : readRun (readMember (decodeValue elem data) elem.isDynamic data base) size count cursor =
      .ok items) :
    items.length = count ∧ ∀ item ∈ items, ∃ pos, decodeValue elem data pos = .ok item := by
  obtain ⟨hlen, hread⟩ := forall_of_readRun h
  refine ⟨hlen, fun item hitem => ?_⟩
  obtain ⟨cursor', hcursor⟩ := hread item hitem
  exact exists_of_readMember hcursor

/-- The members of a tuple are those of the type, and each one was decoded. -/
theorem forall₂_of_decodeMembers {ms : List (Member Ty)} {fields : List (Member Value)}
    (h : decodeMembers ms data base cursor = .ok fields) :
    List.Forall₂ (fun m f => f.name = m.name ∧ ∃ pos, decodeValue m.val data pos = .ok f.val)
      ms fields := by
  induction ms generalizing cursor fields with
  | nil =>
    obtain rfl := Except.ok.inj h
    exact .nil
  | cons m ms ih =>
    rw [decodeMembers] at h
    obtain ⟨v, hv, h⟩ := bind_eq_ok_iff.1 h
    obtain ⟨rest, hrest, h⟩ := bind_eq_ok_iff.1 h
    obtain rfl := Except.ok.inj h
    exact .cons ⟨rfl, exists_of_readMember hv⟩ (ih hrest)

/-! ### Values -/

theorem le_length_of_readBytes {len : Nat} {bs : Bytes} (h : readBytes data pos len = .ok bs) :
    pos + len ≤ data.length := by
  unfold readBytes Bytes.slice? at h
  split at h
  · next hslice =>
    split at hslice
    · next hle => exact hle
    · cases hslice
  · cases h

theorem le_length_of_readWord {w : Word} (h : readWord data pos = .ok w) : pos + 32 ≤ data.length := by
  rw [readWord] at h
  cases hbytes : readBytes data pos 32 with
  | error e =>
    rw [hbytes] at h
    cases h
  | ok bs => exact le_length_of_readBytes hbytes

theorem le_length_of_readSize {n : Nat} (h : readSize data pos = .ok n) : pos + 32 ≤ data.length := by
  obtain ⟨word, hword, -⟩ := bind_eq_ok_iff.1 h
  exact le_length_of_readWord hword

theorem length_of_readBytes {len : Nat} {bs : Bytes} (h : readBytes data pos len = .ok bs) :
    bs.length = len := by
  have hle := le_length_of_readBytes h
  rw [readBytes, Bytes.slice?, if_pos hle] at h
  rw [← Except.ok.inj h, List.length_take, List.length_drop]
  omega

theorem decodeValue_array (h : decodeValue (.array elem) data pos = .ok v) :
    ∃ items, v = .array items ∧
      items.length ≤ (data.length - (pos + 32)) / max elem.headSize 32 ∧
      ∀ item ∈ items, ∃ pos, decodeValue elem data pos = .ok item := by
  rw [decodeValue] at h
  obtain ⟨count, -, h⟩ := bind_eq_ok_iff.1 h
  dsimp only at h
  split at h
  · cases h
  · next hroom =>
    obtain ⟨items, hitems, h⟩ := bind_eq_ok_iff.1 h
    obtain rfl := Except.ok.inj h
    obtain ⟨rfl, hdecode⟩ := forall_of_readRun_readMember hitems
    exact ⟨items, rfl, Nat.not_lt.1 hroom, hdecode⟩

theorem decodeValue_fixedArray {size : UInt64}
    (h : decodeValue (.fixedArray elem size) data pos = .ok v) :
    ∃ items, v = .fixedArray items ∧ items.length = size.toNat ∧
      elem.headSize * size.toNat ≤ data.length ∧
      ∀ item ∈ items, ∃ pos, decodeValue elem data pos = .ok item := by
  rw [decodeValue] at h
  split at h
  · cases h
  · obtain ⟨head, hhead, h⟩ := bind_eq_ok_iff.1 h
    obtain ⟨items, hitems, h⟩ := bind_eq_ok_iff.1 h
    obtain rfl := Except.ok.inj h
    obtain ⟨hlen, hdecode⟩ := forall_of_readRun_readMember hitems
    have hle := le_length_of_readBytes hhead
    exact ⟨items, rfl, hlen, by omega, hdecode⟩

theorem decodeValue_tuple {members : List (Member Ty)}
    (h : decodeValue (.tuple members) data pos = .ok v) :
    ∃ fields, v = .tuple fields ∧
      List.Forall₂ (fun m f => f.name = m.name ∧ ∃ pos, decodeValue m.val data pos = .ok f.val)
        members fields := by
  rw [decodeValue] at h
  obtain ⟨fields, hfields, h⟩ := bind_eq_ok_iff.1 h
  exact ⟨fields, (Except.ok.inj h).symm, forall₂_of_decodeMembers hfields⟩

theorem isOf_of_decodeValue (h : decodeValue ty data pos = .ok v) : v.IsOf ty := by
  cases ty with
  | array elem =>
    obtain ⟨items, rfl, -⟩ := decodeValue_array h
    trivial
  | fixedArray elem size =>
    obtain ⟨items, rfl, hlen, -⟩ := decodeValue_fixedArray h
    exact hlen
  | tuple members =>
    obtain ⟨fields, rfl, -⟩ := decodeValue_tuple h
    trivial
  | _ =>
    rw [decodeValue] at h
    obtain ⟨read, -, h⟩ := bind_eq_ok_iff.1 h
    obtain rfl := Except.ok.inj h
    trivial

/-- Every node of a decoded value was decoded itself. -/
theorem each_of_decodeValue {P : Ty → Value → Prop}
    (hP : ∀ {ty pos v}, decodeValue ty data pos = .ok v → P ty v)
    (h : decodeValue ty data pos = .ok v) : Value.Each P ty v := by
  induction ty using Ty.induct generalizing pos v with
  | address | bool | uint w | int w | fixedBytes w | function | bytes | string =>
    exact (Value.each_iff_of_not_isComposite rfl).2 ⟨isOf_of_decodeValue h, hP h⟩
  | array elem ih =>
    have hnode := hP h
    obtain ⟨items, rfl, -, hitems⟩ := decodeValue_array h
    refine Value.each_array_iff.2 ⟨hnode, fun item hitem => ?_⟩
    obtain ⟨pos', hpos'⟩ := hitems item hitem
    exact ih hpos'
  | fixedArray elem size ih =>
    have hnode := hP h
    obtain ⟨items, rfl, hlen, -, hitems⟩ := decodeValue_fixedArray h
    refine Value.each_fixedArray_iff.2 ⟨hlen, hnode, fun item hitem => ?_⟩
    obtain ⟨pos', hpos'⟩ := hitems item hitem
    exact ih hpos'
  | tuple members ih =>
    have hnode := hP h
    obtain ⟨fields, rfl, hfields⟩ := decodeValue_tuple h
    refine Value.each_tuple_iff.2 ⟨hnode, List.forall₂_map_right_iff.2 ?_⟩
    have hmembers := (List.forall₂_and_left _ _).2 ⟨ih, hfields⟩
    exact hmembers.imp fun m f ⟨ihm, _, pos', hpos'⟩ => ihm hpos'

theorem each_of_decode {P : Ty → Value → Prop} {types : List Ty} {values : List Value}
    (hP : ∀ {ty pos v}, decodeValue ty data pos = .ok v → P ty v)
    (h : decode types data = .ok values) : List.Forall₂ (Value.Each P) types values := by
  obtain ⟨fields, hfields, h⟩ := bind_eq_ok_iff.1 h
  obtain rfl := Except.ok.inj h
  rw [List.forall₂_map_right_iff]
  have hmembers := forall₂_of_decodeMembers hfields
  rw [List.forall₂_map_left_iff] at hmembers
  exact hmembers.imp fun ty f ⟨_, pos, hpos⟩ => each_of_decodeValue hP hpos

/-! ### The lengths of arrays -/

/-- Whether data has to stand behind each element of an array of the type. None stands behind elements
    that take no bytes, where the type says how many there are. -/
def Ty.isBacked : Ty → Bool
  | .fixedArray elem _ => elem.headSize != 0
  | _ => true

/-- An element takes a word at least. -/
theorem elements_le_of_decodeValue (h : decodeValue ty data pos = .ok v) (hty : ty.isBacked = true) :
    v.elements.length ≤ data.length / 32 := by
  cases ty with
  | array elem =>
    obtain ⟨items, rfl, hlen, -⟩ := decodeValue_array h
    calc items.length ≤ (data.length - (pos + 32)) / max elem.headSize 32 := hlen
      _ ≤ (data.length - (pos + 32)) / 32 := Nat.div_le_div_left (Nat.le_max_right _ _) (by decide)
      _ ≤ data.length / 32 := Nat.div_le_div_right (Nat.sub_le _ _)
  | fixedArray elem size =>
    obtain ⟨items, rfl, hlen, hle, -⟩ := decodeValue_fixedArray h
    have hsize : elem.headSize ≠ 0 := by simpa [Ty.isBacked] using hty
    have hword : 32 ≤ elem.headSize := (Ty.headSize_eq_zero_or_le elem).resolve_left hsize
    have hmul : 32 * items.length ≤ elem.headSize * items.length := Nat.mul_le_mul_right _ hword
    rw [← hlen] at hle
    rw [Value.elements]
    omega
  | tuple members =>
    obtain ⟨fields, rfl, -⟩ := decodeValue_tuple h
    exact Nat.zero_le _
  | _ =>
    rw [decodeValue] at h
    obtain ⟨read, -, h⟩ := bind_eq_ok_iff.1 h
    obtain rfl := Except.ok.inj h
    exact Nat.zero_le _

/-- No array among decoded values has more elements than the data has words, unless they take no bytes
    and the type says how many there are. -/
theorem elements_le_of_decode {types : List Ty} {values : List Value}
    (h : decode types data = .ok values) :
    List.Forall₂
      (Value.Each fun ty v => ty.isBacked = true → v.elements.length ≤ data.length / 32)
      types values :=
  each_of_decode elements_le_of_decodeValue h

/-- An array of a pair, and three empty tuples for which there is no data. -/
def pairAndUnits : List Ty := [.array (.fixedArray (.uint .word) 2), .fixedArray (.tuple []) 3]

def pairAndUnitsBytes : Bytes := sizeWord 32 ++ sizeWord 1 ++ sizeWord 5 ++ sizeWord 6

def pairAndUnitsValues : List Value :=
  [.array [.fixedArray [.uint 5 256, .uint 6 256]], .fixedArray [.tuple [], .tuple [], .tuple []]]

set_option maxRecDepth 2000 in
theorem elements_le_of_decode_pairAndUnits :
    decode pairAndUnits pairAndUnitsBytes = .ok pairAndUnitsValues ∧
      List.Forall₂
        (Value.Each fun ty v => ty.isBacked = true → v.elements.length ≤ pairAndUnitsBytes.length / 32)
        pairAndUnits pairAndUnitsValues := by
  have hdecode : decode pairAndUnits pairAndUnitsBytes = .ok pairAndUnitsValues := rfl
  exact ⟨hdecode, elements_le_of_decode hdecode⟩

/-- Two empty tuples are found in no data at all. -/
theorem not_forall_elements_le :
    ¬ ∀ (types : List Ty) (data : Bytes) (values : List Value),
      (∀ ty ∈ types, ∃ text, Ty.parse text = .ok ty) → decode types data = .ok values →
      List.Forall₂ (Value.Each fun _ v => v.elements.length ≤ data.length / 32) types values := by
  intro h
  have hparse : ∀ ty ∈ [Ty.fixedArray (.tuple []) 2], ∃ text, Ty.parse text = .ok ty := by
    intro ty hty
    rw [List.mem_singleton.1 hty]
    exact ⟨"()[2]", by cbv⟩
  have hdecode : decode [.fixedArray (.tuple []) 2] [] = .ok [.fixedArray [.tuple [], .tuple []]] := rfl
  have hle := (List.forall₂_cons.1 (h _ _ _ hparse hdecode)).1.holds
  exact absurd hle (by decide)

end TxTrace.Abi

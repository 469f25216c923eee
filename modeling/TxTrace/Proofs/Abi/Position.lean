import TxTrace.Proofs.Abi.Decoded

/-!
Decoding does not depend on what stands before the values (`decodeAt_append_iff`). Behind other bytes all
positions are larger, and the checks that a sum of them stays in 64 bits fail for other offsets. But such
offsets lead past the end of the data, where nothing dynamic is found (`le_length_of_isDynamic`), and heads
end in the data (`add_headSize_le`), so that no position that is read is one that a check stops.
-/

namespace TxTrace

/-- Behind other bytes a slice stands that much further on. -/
theorem Bytes.slice?_prepend (front data : Bytes) (pos len : Nat) :
    (front ++ data).slice? (front.length + pos) len = data.slice? pos len := by
  simp only [slice?, List.length_append, Nat.add_assoc, Nat.add_le_add_iff_left,
    List.drop_length_add_append]

namespace Abi

variable {α β : Type} {front data : Bytes} {pos base cursor : Nat} {ty : Ty} {ms : List (Member Ty)}

/-! ### Positions that are read -/

theorem le_length_of_readLengthPrefixed {bs : Bytes} (h : readLengthPrefixed data pos = .ok bs) :
    pos + 32 ≤ data.length := by
  obtain ⟨len, hlen, -⟩ := bind_eq_ok_iff.1 h
  exact le_length_of_readSize hlen

/-- The head entry of a dynamic member holds its offset. -/
theorem le_length_of_readMember {read : Nat → Except DecodeError α} {a : α}
    (h : readMember read true data base cursor = .ok a) : cursor + 32 ≤ data.length := by
  obtain ⟨offset, hoffset, -⟩ := bind_eq_ok_iff.1 h
  exact le_length_of_readSize hoffset

/-- A dynamic member leaves the head in the data, wherever it starts. -/
theorem le_length_of_anyDynamic {fields : List (Member Value)} (hmemory : data.length ≤ max64)
    (hms : Ty.anyDynamic ms = true) (h : decodeMembers ms data base cursor = .ok fields) :
    cursor + 32 ≤ data.length := by
  induction ms generalizing cursor fields with
  | nil => cases hms
  | cons m ms ih =>
    rw [decodeMembers] at h
    obtain ⟨v, hv, h⟩ := bind_eq_ok_iff.1 h
    obtain ⟨rest, hrest, -⟩ := bind_eq_ok_iff.1 h
    rw [Ty.anyDynamic, Bool.or_eq_true] at hms
    rcases hms with hdynamic | hms
    · rw [hdynamic] at hv
      exact le_length_of_readMember hv
    · have hle := ih hms hrest
      rw [advance] at hle
      omega

/-- Nothing dynamic is found past the end. -/
theorem le_length_of_isDynamic {v : Value} (hmemory : data.length ≤ max64) (hty : ty.isDynamic = true)
    (h : decodeValue ty data pos = .ok v) : pos ≤ data.length := by
  cases ty with
  | bytes | string =>
    rw [decodeValue] at h
    obtain ⟨bs, hbs, -⟩ := bind_eq_ok_iff.1 h
    exact Nat.le_of_add_right_le (le_length_of_readLengthPrefixed hbs)
  | array elem =>
    rw [decodeValue] at h
    obtain ⟨count, hcount, -⟩ := bind_eq_ok_iff.1 h
    exact Nat.le_of_add_right_le (le_length_of_readSize hcount)
  | fixedArray elem size =>
    rw [decodeValue] at h
    split at h
    · cases h
    · obtain ⟨head, hhead, -⟩ := bind_eq_ok_iff.1 h
      exact Nat.le_of_add_right_le (le_length_of_readBytes hhead)
  | tuple members =>
    rw [decodeValue] at h
    obtain ⟨fields, hfields, -⟩ := bind_eq_ok_iff.1 h
    exact Nat.le_of_add_right_le (le_length_of_anyDynamic hmemory hty hfields)
  | _ => cases hty

/-- Static values of the type end in the data if they begin there. -/
def EndsIn (data : Bytes) (ty : Ty) : Prop :=
  ∀ pos v, decodeValue ty data pos = .ok v → ty.isDynamic = false → pos ≤ data.length →
    pos + ty.headSize ≤ data.length

theorem add_headSize_le {v : Value} (hty : EndsIn data ty)
    (h : readMember (decodeValue ty data) ty.isDynamic data base cursor = .ok v)
    (hcursor : cursor ≤ data.length) : cursor + ty.headSize ≤ data.length := by
  cases hdynamic : ty.isDynamic with
  | true =>
    rw [hdynamic] at h
    rw [Ty.headSize_of_isDynamic hdynamic]
    exact le_length_of_readMember h
  | false =>
    rw [hdynamic] at h
    exact hty cursor v h hdynamic hcursor

theorem add_headSizes_le {fields : List (Member Value)} (hmemory : data.length ≤ max64)
    (hms : ∀ m ∈ ms, EndsIn data m.val) (h : decodeMembers ms data base cursor = .ok fields)
    (hcursor : cursor ≤ data.length) : cursor + Ty.headSizes ms ≤ data.length := by
  induction ms generalizing cursor fields with
  | nil => exact hcursor
  | cons m ms ih =>
    rw [decodeMembers] at h
    obtain ⟨v, hv, h⟩ := bind_eq_ok_iff.1 h
    obtain ⟨rest, hrest, -⟩ := bind_eq_ok_iff.1 h
    obtain ⟨hm, hms⟩ := List.forall_mem_cons.1 hms
    have hnext := add_headSize_le hm hv hcursor
    rw [advance, Nat.min_eq_left (Nat.le_trans hnext hmemory)] at hrest
    rw [Ty.headSizes, ← Nat.add_assoc]
    exact ih hms hrest hnext

theorem endsIn (hmemory : data.length ≤ max64) (ty : Ty) : EndsIn data ty := by
  induction ty using Ty.induct with
  | address | bool | uint w | int w =>
    intro pos v h _ _
    rw [decodeValue] at h
    obtain ⟨word, hword, -⟩ := bind_eq_ok_iff.1 h
    exact le_length_of_readWord hword
  | fixedBytes w | function =>
    intro pos v h _ _
    rw [decodeValue] at h
    obtain ⟨bs, hbs, -⟩ := bind_eq_ok_iff.1 h
    exact le_length_of_readBytes hbs
  | bytes | string | array elem =>
    intro pos v _ hstatic
    cases hstatic
  | fixedArray elem size ih =>
    intro pos v h hstatic _
    have helem : ¬ elem.isDynamic = true := by simpa [Ty.isDynamic] using hstatic
    rw [decodeValue] at h
    split at h
    · cases h
    · obtain ⟨head, hhead, -⟩ := bind_eq_ok_iff.1 h
      have hle := le_length_of_readBytes hhead
      rw [Ty.headSize, if_neg helem]
      omega
  | tuple members ih =>
    intro pos v h hstatic hpos
    have hmembers : ¬ Ty.anyDynamic members = true := by simpa [Ty.isDynamic] using hstatic
    rw [decodeValue] at h
    obtain ⟨fields, hfields, -⟩ := bind_eq_ok_iff.1 h
    have hle := add_headSizes_le hmemory ih hfields hpos
    rw [Ty.headSize, if_neg hmembers]
    omega

/-! ### Reads that succeed alike -/

/-- What one of two computations gives, the other gives too. They may fail with different errors. -/
def SameResults {ε ε' : Type} (x : Except ε α) (y : Except ε' α) : Prop := ∀ a, x = .ok a ↔ y = .ok a

namespace SameResults

variable {ε ε' : Type} {x : Except ε α} {y : Except ε' α}

theorem of_ne (hx : ∀ a, x ≠ .ok a) (hy : ∀ a, y ≠ .ok a) : SameResults x y :=
  fun a => iff_of_false (hx a) (hy a)

theorem of_error (e : ε) (e' : ε') : SameResults (α := α) (.error e) (.error e') :=
  of_ne (by simp) (by simp)

/-- What comes next may rely on what came out. -/
theorem bind {f : α → Except ε β} {g : α → Except ε' β} (h : SameResults x y)
    (hf : ∀ a, y = .ok a → SameResults (f a) (g a)) : SameResults (x >>= f) (y >>= g) := by
  intro b
  rw [bind_eq_ok_iff, bind_eq_ok_iff]
  constructor
  · rintro ⟨a, ha, hb⟩
    have ha' := (h a).1 ha
    exact ⟨a, ha', (hf a ha' b).1 hb⟩
  · rintro ⟨a, ha, hb⟩
    exact ⟨a, (h a).2 ha, (hf a ha b).2 hb⟩

theorem bind_pure (h : SameResults x y) (f : α → β) :
    SameResults (x >>= fun a => pure (f a)) (y >>= fun a => pure (f a)) :=
  h.bind fun a _ b => by simp [pure, Except.pure]

theorem map (h : SameResults x y) (f : α → β) : SameResults (x.map f) (y.map f) := by
  have hmap : ∀ {ε : Type} (z : Except ε α), z.map f = z >>= fun a => pure (f a) := by
    intro ε z
    cases z <;> rfl
  rw [hmap, hmap]
  exact h.bind_pure f

end SameResults

theorem sameResults_readBytes (front data : Bytes) (pos len : Nat) :
    SameResults (readBytes (front ++ data) (front.length + pos) len) (readBytes data pos len) := by
  unfold readBytes
  rw [Bytes.slice?_prepend]
  cases data.slice? pos len with
  | some bs => exact fun _ => Iff.rfl
  | none => exact .of_error _ _

theorem sameResults_readWord (front data : Bytes) (pos : Nat) :
    SameResults (readWord (front ++ data) (front.length + pos)) (readWord data pos) :=
  (sameResults_readBytes front data pos 32).map Word.ofBytes

theorem sameResults_readSize (front data : Bytes) (pos : Nat) :
    SameResults (readSize (front ++ data) (front.length + pos)) (readSize data pos) :=
  (sameResults_readWord front data pos).bind fun _ _ _ => Iff.rfl

theorem sameResults_readLengthPrefixed (front data : Bytes) (pos : Nat) :
    SameResults (readLengthPrefixed (front ++ data) (front.length + pos))
      (readLengthPrefixed data pos) := by
  refine (sameResults_readSize front data pos).bind fun len _ => ?_
  rw [Nat.add_assoc]
  exact sameResults_readBytes front data (pos + 32) len

/-! ### Values behind other bytes -/

/-- Behind `front`, values of the type are found as many bytes further on. -/
def Shifts (front data : Bytes) (ty : Ty) : Prop :=
  ∀ pos, pos ≤ data.length →
    SameResults (decodeValue ty (front ++ data) (front.length + pos)) (decodeValue ty data pos)

section Shifts

variable (hmemory : front.length + data.length ≤ max64)

include hmemory

theorem length_append_le : (front ++ data).length ≤ max64 := by
  rw [List.length_append]
  exact hmemory

/-- An offset that only one of the checks lets pass leads past the end of the data. -/
theorem sameResults_readMember (hty : Shifts front data ty) (base : Nat) (hcursor : cursor ≤ data.length) :
    SameResults
      (readMember (decodeValue ty (front ++ data)) ty.isDynamic (front ++ data) (front.length + base)
        (front.length + cursor))
      (readMember (decodeValue ty data) ty.isDynamic data base cursor) := by
  cases hdynamic : ty.isDynamic with
  | false => exact hty cursor hcursor
  | true =>
    refine (sameResults_readSize front data cursor).bind fun offset _ => ?_
    rw [Nat.add_assoc]
    by_cases hle : base + offset ≤ data.length
    · rw [if_pos (by omega), if_pos (by omega)]
      exact hty (base + offset) hle
    · have hmemory' := length_append_le hmemory
      refine .of_ne (fun v h => ?_) fun v h => ?_
      · split at h
        · have hpos := le_length_of_isDynamic hmemory' hdynamic h
          rw [List.length_append] at hpos
          omega
        · cases h
      · split at h
        · exact hle (le_length_of_isDynamic (by omega) hdynamic h)
        · cases h

theorem sameResults_decodeMembers (hms : ∀ m ∈ ms, Shifts front data m.val) (base : Nat)
    (hcursor : cursor ≤ data.length) :
    SameResults (decodeMembers ms (front ++ data) (front.length + base) (front.length + cursor))
      (decodeMembers ms data base cursor) := by
  induction ms generalizing cursor with
  | nil => exact fun _ => Iff.rfl
  | cons m ms ih =>
    obtain ⟨hm, hms⟩ := List.forall_mem_cons.1 hms
    rw [decodeMembers, decodeMembers]
    refine (sameResults_readMember hmemory hm base hcursor).bind fun v hv => ?_
    have hnext := add_headSize_le (endsIn (by omega) m.val) hv hcursor
    rw [advance, advance, Nat.add_assoc, Nat.min_eq_left (by omega), Nat.min_eq_left (by omega)]
    exact (ih hms hnext).bind_pure _

theorem sameResults_readRun {elem : Ty} (helem : Shifts front data elem) (base count : Nat)
    (hcursor : cursor ≤ data.length) :
    SameResults
      (readRun (readMember (decodeValue elem (front ++ data)) elem.isDynamic (front ++ data)
        (front.length + base)) elem.headSize count (front.length + cursor))
      (readRun (readMember (decodeValue elem data) elem.isDynamic data base) elem.headSize count
        cursor) := by
  rw [readRun_eq_decodeMembers, readRun_eq_decodeMembers]
  exact (sameResults_decodeMembers hmemory (forall_equalMembers helem count) base hcursor).bind_pure _

/-- The same room is left for the elements of an array. -/
theorem shifts_array {elem : Ty} (helem : Shifts front data elem) : Shifts front data (.array elem) := by
  intro pos _
  rw [decodeValue, decodeValue]
  refine (sameResults_readSize front data pos).bind fun count hcount => ?_
  have hstart := le_length_of_readSize hcount
  have hroom : (front ++ data).length - (front.length + pos + 32) = data.length - (pos + 32) := by
    rw [List.length_append]
    omega
  dsimp only
  rw [hroom, Nat.add_assoc]
  split
  · exact .of_error _ _
  · exact (sameResults_readRun hmemory helem (pos + 32) count hstart).bind_pure _

theorem shifts_fixedArray {elem : Ty} (helem : Shifts front data elem) (size : UInt64) :
    Shifts front data (.fixedArray elem size) := by
  intro pos hpos
  rw [decodeValue, decodeValue]
  split
  · exact .of_error _ _
  · refine (sameResults_readBytes front data pos _).bind fun _ _ => ?_
    exact (sameResults_readRun hmemory helem pos size.toNat hpos).bind_pure _

theorem shifts (ty : Ty) : Shifts front data ty := by
  induction ty using Ty.induct with
  | address | bool | uint w | int w =>
    intro pos _
    rw [decodeValue, decodeValue]
    exact (sameResults_readWord front data pos).bind_pure _
  | fixedBytes w | function =>
    intro pos _
    rw [decodeValue, decodeValue]
    exact (sameResults_readBytes front data pos 32).bind_pure _
  | bytes | string =>
    intro pos _
    rw [decodeValue, decodeValue]
    exact (sameResults_readLengthPrefixed front data pos).bind_pure _
  | array elem ih => exact shifts_array hmemory ih
  | fixedArray elem size ih => exact shifts_fixedArray hmemory ih size
  | tuple members ih =>
    intro pos hpos
    rw [decodeValue, decodeValue]
    exact (sameResults_decodeMembers hmemory ih pos hpos).bind_pure _

end Shifts

/-- The values of a sequence of the given types whose head starts in `data` at `base`. -/
def decodeAt (types : List Ty) (data : Bytes) (base : Nat) : Except DecodeError (List Value) := do
  let fields ← decodeMembers (types.map Member.unnamed) data base base
  return fields.map (·.val)

@[simp]
theorem decodeAt_zero (types : List Ty) (data : Bytes) : decodeAt types data 0 = decode types data := rfl

/-- A sequence is found behind other bytes just if it is found at the start of the data, with the same
    values. Positions in both together have 64 bits. -/
theorem decodeAt_append_iff {types : List Ty} {values : List Value}
    (hmemory : front.length + data.length ≤ max64) :
    decodeAt types (front ++ data) front.length = .ok values ↔ decode types data = .ok values := by
  have hmembers := sameResults_decodeMembers hmemory
    (fun m (_ : m ∈ types.map Member.unnamed) => shifts hmemory m.val) 0 (Nat.zero_le _)
  rw [← decodeAt_zero]
  exact (hmembers.bind_pure fun fields => fields.map (·.val)) values

set_option maxRecDepth 2000 in
/-- The largest offset passes the check at the start of the data, and no more behind a byte. -/
theorem decodeAt_append_iff_pairAndUnits :
    decodeAt pairAndUnits ([1, 2, 3] ++ pairAndUnitsBytes) 3 = .ok pairAndUnitsValues ∧
      decode [.string] (sizeWord max64) = .error (.insufficientData max64 32 0) ∧
      decodeAt [.string] ([1] ++ sizeWord max64) 1 = .error (.offsetOverflows max64) ∧
      ∀ values, decodeAt [.string] ([1] ++ sizeWord max64) 1 ≠ .ok values := by
  have hpairs : decode pairAndUnits pairAndUnitsBytes = .ok pairAndUnitsValues := rfl
  have hlast : decode [.string] (sizeWord max64) = .error (.insufficientData max64 32 0) := rfl
  have hmemory : [1, 2, 3].length + pairAndUnitsBytes.length ≤ max64 := by decide +kernel
  refine ⟨(decodeAt_append_iff hmemory).2 hpairs, hlast, rfl, fun values h => ?_⟩
  have hmemory' : [1].length + (sizeWord max64).length ≤ max64 := by decide +kernel
  rw [(decodeAt_append_iff hmemory').1 h] at hlast
  cases hlast

end Abi

end TxTrace

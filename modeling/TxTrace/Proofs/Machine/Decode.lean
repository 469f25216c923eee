import TxTrace.Machine.Encode
import TxTrace.Proofs.Abi.Decoded
import TxTrace.Proofs.Machine.Size

/-!
Decoding on a machine with sizes of 64 bits. Each sum, quotient and slice that the machine may be unable
to do is a fault, and no data leads to one: decoding comes out as it does with numbers
(`decode_eq_mapError`).
-/

namespace TxTrace.Machine

open Abi (DecodeError Member Ty Value)

/-! ### Reads -/

variable {α : Type}

def readBytes (data : Bytes) (pos len : UInt64) : Except (Halt DecodeError) Bytes :=
  match (add? pos len).bind fun stop => get? data pos stop with
  | some bs => .ok bs
  | none =>
    .error (.error (.insufficientData pos.toNat len.toNat (subSat (length data) pos).toNat))

/-- The 32 bytes of a word. -/
def readWord (data : Bytes) (pos : UInt64) : Except (Halt DecodeError) Bytes := do
  copy 32 (← readBytes data pos 32)

def readSize (data : Bytes) (pos : UInt64) : Except (Halt DecodeError) UInt64 := do
  let word := Word.ofBytes (← readWord data pos)
  if word.toNat ≤ max64 then return UInt64.ofNat word.toNat
  else throw (.error (.notInMemory word.toNat))

def readLengthPrefixed (data : Bytes) (pos : UInt64) : Except (Halt DecodeError) Bytes := do
  let len ← readSize data pos
  let start ← add pos 32
  readBytes data start len

def readMember (read : UInt64 → Except (Halt DecodeError) α) (isDynamic : Bool) (data : Bytes)
    (base cursor : UInt64) : Except (Halt DecodeError) α :=
  if isDynamic then do
    let offset ← readSize data cursor
    match add? base offset with
    | some pos => read pos
    | none => throw (.error (.offsetOverflows offset.toNat))
  else read cursor

def readRun (read : UInt64 → Except (Halt DecodeError) α) (size : UInt64) :
    (count : Nat) → (cursor : UInt64) → Except (Halt DecodeError) (List α)
  | 0, _ => .ok []
  | count + 1, cursor => do
    let v ← read cursor
    let vs ← readRun read size count (addSat cursor size)
    return v :: vs

mutual

def decodeValue (ty : Ty) (data : Bytes) (pos : UInt64) : Except (Halt DecodeError) Value :=
  match ty with
  | .address => do return .address (Word.ofBytes (← readWord data pos)).toAddress
  | .bool => do return .bool (Word.ofBytes (← readWord data pos) != 0)
  | .uint w => do return .uint (Word.ofBytes (← readWord data pos)) w.bits
  | .int w => do return .int (Word.ofBytes (← readWord data pos)) w.bits
  | .fixedBytes w => do
    return .fixedBytes (← take (← readWord data pos) (min (UInt64.ofNat w.bytes) 32))
  | .function => do return .fixedBytes (← take (← readWord data pos) 24)
  | .bytes => do return .bytes (← readLengthPrefixed data pos)
  | .string => do return .string (Text.ofUtf8Lossy (← readLengthPrefixed data pos))
  | .array elem => do
    let count ← readSize data pos
    let start ← add pos 32
    let room ← div (subSat (length data) start) (max (headSize elem) 32)
    if room < count then throw (.error (.arrayTooLong count.toNat))
    let items ← readRun (readMember (decodeValue elem data) elem.isDynamic data start)
      (headSize elem) count.toNat start
    return .array items
  | .fixedArray elem size =>
    match mul? (headSize elem) size with
    | none => throw (.error (.fixedArrayTooLarge size.toNat))
    | some needed => do
      let _ ← readBytes data pos needed
      let items ← readRun (readMember (decodeValue elem data) elem.isDynamic data pos)
        (headSize elem) size.toNat pos
      return .fixedArray items
  | .tuple members => do return .tuple (← decodeMembers members data pos pos)

def decodeMembers (members : List (Member Ty)) (data : Bytes) (base cursor : UInt64) :
    Except (Halt DecodeError) (List (Member Value)) :=
  match members with
  | [] => .ok []
  | m :: ms => do
    let v ← readMember (decodeValue m.val data) m.val.isDynamic data base cursor
    let vs ← decodeMembers ms data base (addSat cursor (headSize m.val))
    return ⟨m.name, v⟩ :: vs

end

def decode (types : List Ty) (data : Bytes) : Except (Halt DecodeError) (List Value) := do
  let fields ← decodeMembers (types.map Member.unnamed) data 0 0
  return fields.map (·.val)

/-! ### Sizes come out alike -/

theorem toNat_headSizes {ms : List (Member Ty)}
    (hms : ∀ m ∈ ms, (headSize m.val).toNat = m.val.headSize) (sum : UInt64) :
    (headSizes sum ms).toNat = min (sum.toNat + Ty.headSizes ms) max64 := by
  induction ms generalizing sum with
  | nil =>
    rw [headSizes, Ty.headSizes, Nat.add_zero, Nat.min_eq_left (toNat_le sum)]
  | cons m ms ih =>
    rw [headSizes, ih (fun m' hm' => hms m' (List.mem_cons_of_mem m hm')), toNat_addSat,
      hms m List.mem_cons_self, Ty.headSizes]
    omega

theorem toNat_headSize (ty : Ty) : (headSize ty).toNat = ty.headSize := by
  induction ty using Ty.induct with
  | fixedArray elem size ih =>
    rw [headSize, Ty.headSize]
    split
    · rfl
    · rw [toNat_mulSat, ih]
  | tuple members ih =>
    rw [headSize, Ty.headSize]
    split
    · rfl
    · rw [toNat_headSizes ih, UInt64.toNat_zero, Nat.zero_add]
  | _ => rfl

/-! ### Reads come out alike -/

variable {data : Bytes}

theorem follows_readBytes (hdata : data.length ≤ max64) (pos len : UInt64) :
    Follows Eq (readBytes data pos len) (Abi.readBytes data pos.toNat len.toNat) := by
  unfold readBytes Abi.readBytes
  rw [bind_add?_get? hdata, toNat_subSat, toNat_length hdata]
  cases data.slice? pos.toNat len.toNat with
  | some bs => exact .ok rfl
  | none => exact .error _

/-- A word is copied whole. -/
theorem follows_readWord (hdata : data.length ≤ max64) (pos : UInt64) :
    Follows (fun bs bs' => bs = bs' ∧ bs.length = 32) (readWord data pos)
      (Abi.readBytes data pos.toNat 32) := by
  rw [readWord, ← bind_pure (Abi.readBytes data pos.toNat 32)]
  refine (follows_readBytes hdata pos 32).bind ?_
  rintro bs _ hread rfl
  have hlen : bs.length = 32 := Abi.length_of_readBytes hread
  rw [copy_eq_ok hlen]
  exact .ok ⟨rfl, hlen⟩

theorem follows_readWord_ofBytes (hdata : data.length ≤ max64) (pos : UInt64) :
    Follows (fun bs word => Word.ofBytes bs = word) (readWord data pos)
      (Abi.readWord data pos.toNat) :=
  (follows_readWord hdata pos).map_right fun _ _ h => congrArg Word.ofBytes h.1

theorem follows_readSize (hdata : data.length ≤ max64) (pos : UInt64) :
    Follows (fun a n => a.toNat = n) (readSize data pos) (Abi.readSize data pos.toNat) := by
  rw [readSize, Abi.readSize]
  refine (follows_readWord_ofBytes hdata pos).bind ?_
  rintro bs _ - rfl
  dsimp only
  split
  · next h => exact .ok (toNat_ofNat h)
  · exact .error _

/-- Behind a size that was read there is a position. -/
theorem add_word_le (hdata : data.length ≤ max64) {pos : UInt64} {n : Nat}
    (h : Abi.readSize data pos.toNat = .ok n) : pos.toNat + (32 : UInt64).toNat ≤ max64 :=
  Nat.le_trans (Abi.le_length_of_readSize h) hdata

theorem follows_readLengthPrefixed (hdata : data.length ≤ max64) (pos : UInt64) :
    Follows Eq (readLengthPrefixed data pos) (Abi.readLengthPrefixed data pos.toNat) := by
  rw [readLengthPrefixed, Abi.readLengthPrefixed]
  refine (follows_readSize hdata pos).bind ?_
  rintro len _ hread rfl
  have hle := add_word_le hdata hread
  rw [add_eq_ok hle, ok_bind]
  have hbytes := follows_readBytes hdata (pos + 32) len
  rw [toNat_add hle] at hbytes
  exact hbytes

section Members

variable {read : UInt64 → Except (Halt DecodeError) α} {read' : Nat → Except DecodeError α}
  (hread : ∀ pos, Follows Eq (read pos) (read' pos.toNat))

include hread

theorem follows_readMember (hdata : data.length ≤ max64) (isDynamic : Bool) (base cursor : UInt64) :
    Follows Eq (readMember read isDynamic data base cursor)
      (Abi.readMember read' isDynamic data base.toNat cursor.toNat) := by
  unfold readMember Abi.readMember
  split
  · refine (follows_readSize hdata cursor).bind ?_
    rintro offset _ - rfl
    rw [add?]
    by_cases hle : base.toNat + offset.toNat ≤ max64
    · rw [if_pos hle, if_pos hle, ← toNat_add hle]
      exact hread (base + offset)
    · rw [if_neg hle, if_neg hle]
      exact .error _
  · exact hread cursor

theorem follows_readRun (size : UInt64) (count : Nat) (cursor : UInt64) :
    Follows Eq (readRun read size count cursor)
      (Abi.readRun read' size.toNat count cursor.toNat) := by
  induction count generalizing cursor with
  | zero => exact .ok rfl
  | succ count ih =>
    rw [readRun, Abi.readRun, Abi.advance, ← toNat_addSat]
    refine (hread cursor).bind_eq fun v => ?_
    refine (ih (addSat cursor size)).bind_eq fun vs => ?_
    exact .ok rfl

end Members

/-! ### Values come out alike -/

theorem follows_decodeMembers {ms : List (Member Ty)} (hdata : data.length ≤ max64)
    (hms : ∀ m ∈ ms, ∀ pos, Follows Eq (decodeValue m.val data pos)
      (Abi.decodeValue m.val data pos.toNat)) (base cursor : UInt64) :
    Follows Eq (decodeMembers ms data base cursor)
      (Abi.decodeMembers ms data base.toNat cursor.toNat) := by
  induction ms generalizing cursor with
  | nil =>
    rw [decodeMembers, Abi.decodeMembers]
    exact .ok rfl
  | cons m ms ih =>
    rw [decodeMembers, Abi.decodeMembers, Abi.advance, ← toNat_headSize, ← toNat_addSat]
    refine (follows_readMember (hms m List.mem_cons_self) hdata _ _ _).bind_eq fun v => ?_
    refine (ih (fun m' hm' => hms m' (List.mem_cons_of_mem m hm')) _).bind_eq fun vs => ?_
    exact .ok rfl

theorem follows_decodeArray {elem : Ty} (hdata : data.length ≤ max64)
    (helem : ∀ pos, Follows Eq (decodeValue elem data pos) (Abi.decodeValue elem data pos.toNat))
    (pos : UInt64) :
    Follows Eq (decodeValue (.array elem) data pos)
      (Abi.decodeValue (.array elem) data pos.toNat) := by
  rw [decodeValue, Abi.decodeValue]
  refine (follows_readSize hdata pos).bind ?_
  rintro count _ hread rfl
  have hle := add_word_le hdata hread
  have hdiv : (max (headSize elem) 32).toNat = max elem.headSize 32 := by
    rw [UInt64.toNat_max, toNat_headSize]
    rfl
  have hpos : (max (headSize elem) 32).toNat ≠ 0 := by omega
  have hroom : subSat (length data) (pos + 32) / max (headSize elem) 32 < count ↔
      (data.length - (pos.toNat + 32)) / max elem.headSize 32 < count.toNat := by
    rw [UInt64.lt_iff_toNat_lt, UInt64.toNat_div, hdiv, toNat_subSat, toNat_length hdata,
      toNat_add hle]
    rfl
  rw [add_eq_ok hle, ok_bind, div_eq_ok hpos, ok_bind]
  dsimp only
  split
  · next hlt =>
    rw [if_pos (hroom.1 hlt)]
    exact .error _
  · next hlt =>
    rw [if_neg (mt hroom.2 hlt), ← toNat_headSize]
    have hitems := follows_readRun
      (follows_readMember helem hdata elem.isDynamic (pos + 32)) (headSize elem) count.toNat (pos + 32)
    rw [toNat_add hle] at hitems
    refine hitems.bind_eq fun items => ?_
    exact .ok rfl

theorem follows_decodeFixedArray {elem : Ty} (hdata : data.length ≤ max64)
    (helem : ∀ pos, Follows Eq (decodeValue elem data pos) (Abi.decodeValue elem data pos.toNat))
    (size pos : UInt64) :
    Follows Eq (decodeValue (.fixedArray elem size) data pos)
      (Abi.decodeValue (.fixedArray elem size) data pos.toNat) := by
  rw [decodeValue, Abi.decodeValue, ← toNat_headSize, mul?]
  by_cases hle : (headSize elem).toNat * size.toNat ≤ max64
  · rw [if_pos hle, if_neg (Nat.not_lt.2 hle)]
    have hbytes := follows_readBytes hdata pos (headSize elem * size)
    rw [toNat_mul hle] at hbytes
    refine hbytes.bind_eq fun head => ?_
    have hitems := follows_readRun
      (follows_readMember helem hdata elem.isDynamic pos) (headSize elem) size.toNat pos
    refine hitems.bind_eq fun items => ?_
    exact .ok rfl
  · rw [if_neg hle, if_pos (Nat.not_le.1 hle)]
    exact .error _

/-- No position and no type leads to a fault. -/
theorem follows_decodeValue (hdata : data.length ≤ max64) (ty : Ty) (pos : UInt64) :
    Follows Eq (decodeValue ty data pos) (Abi.decodeValue ty data pos.toNat) := by
  induction ty using Ty.induct generalizing pos with
  | address | bool | uint w | int w =>
    rw [decodeValue, Abi.decodeValue]
    refine (follows_readWord_ofBytes hdata pos).bind ?_
    rintro bs _ - rfl
    exact .ok rfl
  | fixedBytes w =>
    rw [decodeValue, Abi.decodeValue]
    refine (follows_readWord hdata pos).bind ?_
    rintro bs _ - ⟨rfl, hlen⟩
    have hbytes : (UInt64.ofNat w.bytes).toNat = w.bytes :=
      toNat_ofNat (Nat.le_trans w.bytes_bounds.2 (by decide))
    rw [take_min_eq_ok hlen, hbytes]
    exact .ok rfl
  | function =>
    rw [decodeValue, Abi.decodeValue]
    refine (follows_readWord hdata pos).bind ?_
    rintro bs _ - ⟨rfl, hlen⟩
    have hle : (24 : UInt64).toNat ≤ bs.length := by
      rw [hlen]
      decide
    rw [take_eq_ok hle]
    exact .ok rfl
  | bytes | string =>
    rw [decodeValue, Abi.decodeValue]
    refine (follows_readLengthPrefixed hdata pos).bind_eq fun bs => ?_
    exact .ok rfl
  | array elem ih => exact follows_decodeArray hdata ih pos
  | fixedArray elem size ih => exact follows_decodeFixedArray hdata ih size pos
  | tuple members ih =>
    rw [decodeValue, Abi.decodeValue]
    refine (follows_decodeMembers hdata ih pos pos).bind_eq fun fields => ?_
    exact .ok rfl

/-- Decoding on a machine has no fault. It comes out as it does with numbers. The length of a byte string
    in memory has 64 bits. -/
theorem decode_eq_mapError {types : List Ty} (hmemory : data.length ≤ max64) :
    (∀ f, decode types data ≠ .error (.fault f)) ∧
      decode types data = (Abi.decode types data).mapError .error := by
  have hfollows : Follows Eq (decode types data) (Abi.decode types data) := by
    rw [decode, Abi.decode]
    have hmembers : Follows Eq (decodeMembers (types.map Member.unnamed) data 0 0)
        (Abi.decodeMembers (types.map Member.unnamed) data 0 0) :=
      follows_decodeMembers hmemory (fun m _ => follows_decodeValue hmemory m.val) 0 0
    refine hmembers.bind_eq fun fields => ?_
    exact .ok rfl
  have heq := hfollows.eq_mapError
  refine ⟨fun f hfault => ?_, heq⟩
  rw [heq] at hfault
  cases hdecode : Abi.decode types data <;> rw [hdecode] at hfault <;> cases hfault

/-- An array of the largest length, of elements that are as large. -/
def hugeTypes : List Ty := [.array (.fixedArray .word last)]

def hugeBytes : Bytes := Abi.sizeWord 32 ++ Abi.sizeWord max64

theorem decode_eq_mapError_huge :
    hugeBytes.length ≤ max64 ∧ decode hugeTypes hugeBytes = .error (.error (.arrayTooLong max64)) := by
  have hmemory : hugeBytes.length ≤ max64 := by decide +kernel
  have hdecode : Abi.decode hugeTypes hugeBytes = .error (.arrayTooLong max64) := rfl
  refine ⟨hmemory, ?_⟩
  rw [(decode_eq_mapError hmemory).2, hdecode]
  rfl

end TxTrace.Machine

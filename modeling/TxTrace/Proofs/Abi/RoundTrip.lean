import TxTrace.Proofs.Abi.Nodes
import TxTrace.Proofs.Text.Utf8

/-!
Decoding undoes encoding (`decode_encode`). Values come back with the widths and the names of their
types, and nothing is said of dynamic arrays whose elements take no bytes: the data does not show how
many there are. A value with such arrays is read back as well, unless it is refused for one of them
(`readsBack_of_each`).
-/

namespace TxTrace.Abi

mutual

/-- The elements of every dynamic array in the type take bytes. -/
def Ty.elementsTakeBytes : Ty → Bool
  | .array elem => elem.headSize != 0 && elem.elementsTakeBytes
  | .fixedArray elem _ => elem.elementsTakeBytes
  | .tuple members => Ty.membersTakeBytes members
  | _ => true

/-- The elements of every dynamic array in the members of a tuple take bytes. -/
def Ty.membersTakeBytes : List (Member Ty) → Bool
  | [] => true
  | m :: ms => m.val.elementsTakeBytes && membersTakeBytes ms

end

mutual

/-- The value with the integer widths and the member names of a type. -/
def Value.retype : (ty : Ty) → (v : Value) → Value
  | .uint w, .uint word _ => .uint word w.bits
  | .int w, .int word _ => .int word w.bits
  | .array elem, .array items => .array (items.map (Value.retype elem))
  | .fixedArray elem _, .fixedArray items => .fixedArray (items.map (Value.retype elem))
  | .tuple members, .tuple fields => .tuple (Value.retypeMembers members (fields.map (·.val)))
  | _, v => v

/-- Values as the members of a tuple. -/
def Value.retypeMembers : (members : List (Member Ty)) → (values : List Value) → List (Member Value)
  | m :: ms, v :: vs => ⟨m.name, v.retype m.val⟩ :: Value.retypeMembers ms vs
  | _, _ => []

end

theorem elementsTakeBytes_of_mem {ms : List (Member Ty)} (h : Ty.membersTakeBytes ms = true) :
    ∀ m ∈ ms, m.val.elementsTakeBytes = true := by
  induction ms with
  | nil =>
    intro m hm
    cases hm
  | cons m ms ih =>
    simp only [Ty.membersTakeBytes, Bool.and_eq_true] at h
    intro m' hm'
    rcases List.mem_cons.1 hm' with rfl | hm'
    · exact h.1
    · exact ih h.2 m' hm'

open Bytes (StandsAt)

variable {data b : Bytes} {pos : Nat} {v : Value} {E : DecodeError → Prop}

/-- The read finds `a`, unless it is refused in one of the ways `E`. -/
def Finds {α : Type} (E : DecodeError → Prop) (read : Except DecodeError α) (a : α) : Prop :=
  read = .ok a ∨ ∃ e, E e ∧ read = .error e

theorem Finds.bind {α β : Type} {read : Except DecodeError α} {f : α → Except DecodeError β} {a : α}
    {c : β} (h : Finds E read a) (hf : Finds E (f a) c) : Finds E (read >>= f) c := by
  rcases h with hread | ⟨e, he, hread⟩
  · rw [hread]
    exact hf
  · rw [hread]
    exact .inr ⟨e, he, rfl⟩

theorem finds_false_iff {α : Type} {read : Except DecodeError α} {a : α} :
    Finds (fun _ => False) read a ↔ read = .ok a := by
  simp [Finds]

/-- Reading the value as one of the type where its encoding stands gives it back, unless the read is
    refused in one of the ways `E`. -/
def ReadsBack (E : DecodeError → Prop) (ty : Ty) (v : Value) : Prop :=
  ∀ (b data : Bytes) (pos : Nat), encodeValue ty v = .ok b → StandsAt data pos b →
    data.length ≤ max64 → Finds E (decodeValue ty data pos) (v.retype ty)

/-- Reading a value of the type where its encoding stands gives it back. -/
def RoundTrips (ty : Ty) : Prop :=
  ∀ (v : Value) (b data : Bytes) (pos : Nat), encodeValue ty v = .ok b → StandsAt data pos b →
    data.length ≤ max64 → decodeValue ty data pos = .ok (v.retype ty)

theorem RoundTrips.readsBack {ty : Ty} (h : RoundTrips ty) (v : Value) : ReadsBack E ty v :=
  fun b data pos hb hstands hdata => .inl (h v b data pos hb hstands hdata)

/-! ### Sequences -/

variable {ms : List (Member Ty)} {vs : List Value} {ps : List Piece}

theorem decodeMembers_of_laid {base cursor offset : Nat}
    (hvs : List.Forall₂ (fun m v => ReadsBack E m.val v) ms vs) (h : encodeMembers ms vs = .ok ps)
    (hlaid : Laid data base cursor offset ps) (hdata : data.length ≤ max64) :
    Finds E (decodeMembers ms data base cursor) (Value.retypeMembers ms vs) := by
  induction hvs generalizing ps cursor offset with
  | nil => exact .inl rfl
  | cons hv hvs ih =>
    next m v ms vs =>
    obtain ⟨content, rest, hcontent, hrest, rfl⟩ := encodeMembers_cons h
    have hhead := hlaid.head.le_length
    rw [length_head_layoutFrom, List.map_cons, List.sum_cons] at hhead
    have hsize := headSize_piece (length_of_encodeValue m.val) hcontent (by omega)
    obtain ⟨at_, hat, hread⟩ := hlaid.readMember hdata (decodeValue m.val data)
    have hmember := hv content data at_ hcontent hat hdata
    rw [← hread] at hmember
    obtain ⟨offset', hlaid'⟩ := hlaid.rest hdata
    rw [hsize] at hlaid'
    rw [decodeMembers]
    exact hmember.bind ((ih hrest hlaid').bind (.inl rfl))

/-- A sequence is read where it was laid out, and its head lies in the data. -/
theorem decodeMembers_of_readsBack (hvs : List.Forall₂ (fun m v => ReadsBack E m.val v) ms vs)
    (h : encodeMembers ms vs = .ok ps) (hstands : StandsAt data pos (layout (Ty.headSizes ms) ps))
    (hdata : data.length ≤ max64) :
    Finds E (decodeMembers ms data pos pos) (Value.retypeMembers ms vs) ∧
      StandsAt data pos (layoutFrom (Ty.headSizes ms) ps).1 ∧
      (layoutFrom (Ty.headSizes ms) ps).1.length = Ty.headSizes ms := by
  have hsum : (ps.map Piece.headSize).sum ≤ max64 := by
    have hle := hstands.le_length
    have hhead := sum_le_length_layout (Ty.headSizes ms) ps
    omega
  have hsizes := sum_headSize (fun m _ => length_of_encodeValue m.val) h hvs.length_eq hsum
  have hmin : min (Ty.headSizes ms) max64 = Ty.headSizes ms := by omega
  have hlaid := laid_of_standsAt (hmin.trans hsizes.symm) hstands
  rw [hmin] at hlaid
  exact ⟨decodeMembers_of_laid hvs h hlaid hdata, hlaid.head,
    (length_head_layoutFrom _ _).trans hsizes⟩

theorem map_retypeMembers_equalMembers (elem : Ty) (items : List Value) :
    (Value.retypeMembers (equalMembers elem items.length) items).map (·.val) =
      items.map (Value.retype elem) := by
  induction items with
  | nil => rfl
  | cons v vs ih =>
    rw [List.length_cons, equalMembers_succ, Value.retypeMembers, List.map_cons, ih]
    rfl

theorem forall₂_readsBack_equalMembers {elem : Ty} {items : List Value}
    (hitems : ∀ item ∈ items, ReadsBack E elem item) :
    List.Forall₂ (fun m v => ReadsBack E m.val v) (equalMembers elem items.length) items := by
  induction items with
  | nil => exact .nil
  | cons item items ih =>
    obtain ⟨hitem, hitems⟩ := List.forall_mem_cons.1 hitems
    exact .cons hitem (ih hitems)

/-- The items of an array are read as the members of a tuple are. -/
theorem readRun_of_decodeMembers {elem : Ty} {items : List Value} {base cursor : Nat}
    (h : Finds E (decodeMembers (equalMembers elem items.length) data base cursor)
      (Value.retypeMembers (equalMembers elem items.length) items)) :
    Finds E (readRun (readMember (decodeValue elem data) elem.isDynamic data base) elem.headSize
      items.length cursor) (items.map (Value.retype elem)) := by
  rw [readRun_eq_decodeMembers, ← map_retypeMembers_equalMembers]
  exact h.bind (.inl rfl)

/-- An array is read back with its items. It may be refused if they take no bytes. -/
theorem readsBack_array {elem : Ty} {items : List Value}
    (hitems : ∀ item ∈ items, ReadsBack E elem item)
    (hsize : elem.headSize = 0 → items ≠ [] →
      items.length ≤ max64 ∧ E (.arrayTooLong items.length)) :
    ReadsBack E (.array elem) (.array items) := by
  intro b data pos h hstands hdata
  obtain ⟨_, ps, heq, hps, hb⟩ := encodeValue_array h
  obtain rfl := Value.array.inj heq
  rw [hb] at hstands
  have hright := hstands.right
  rw [length_sizeWord] at hright
  obtain ⟨hread, hhead, hlength⟩ := decodeMembers_of_readsBack
    (forall₂_readsBack_equalMembers hitems) hps hright hdata
  have hle := hhead.le_length
  rw [hlength, headSizes_equalMembers] at hle
  -- items that take bytes take a word each, and then the length passes the guard
  have hcount : items.length ≤ max64 ∧
      ((data.length - (pos + 32)) / max elem.headSize 32 < items.length →
        E (.arrayTooLong items.length)) := by
    rcases Ty.headSize_eq_zero_or_le elem with hzero | hword
    · rcases eq_or_ne items [] with rfl | hne
      · exact ⟨Nat.zero_le _, fun hlt => absurd hlt (Nat.not_lt_zero _)⟩
      · exact ⟨(hsize hzero hne).1, fun _ => (hsize hzero hne).2⟩
    · have hroom : items.length ≤ (data.length - (pos + 32)) / max elem.headSize 32 := by
        rw [Nat.max_eq_left hword, Nat.le_div_iff_mul_le (by omega)]
        omega
      have hmul : items.length * 1 ≤ items.length * elem.headSize :=
        Nat.mul_le_mul_left _ (by omega)
      exact ⟨by omega, fun hlt => absurd hlt (Nat.not_lt.2 hroom)⟩
  rw [decodeValue, readSize_of_standsAt hcount.1 hstands.left, ok_bind]
  dsimp only
  split
  · next hlt => exact .inr ⟨_, hcount.2 hlt, rfl⟩
  · exact (readRun_of_decodeMembers hread).bind (.inl rfl)

theorem readsBack_fixedArray {elem : Ty} {items : List Value}
    (hitems : ∀ item ∈ items, ReadsBack E elem item) (size : UInt64) :
    ReadsBack E (.fixedArray elem size) (.fixedArray items) := by
  intro b data pos h hstands hdata
  obtain ⟨_, ps, heq, hlen, hps, rfl⟩ := encodeValue_fixedArray h
  obtain rfl := Value.fixedArray.inj heq
  obtain ⟨hread, hhead, hlength⟩ := decodeMembers_of_readsBack
    (forall₂_readsBack_equalMembers hitems) hps hstands hdata
  have hbytes := readBytes_of_standsAt hhead
  rw [hlength, headSizes_equalMembers, hlen, Nat.mul_comm] at hbytes
  have hle := hhead.le_length
  rw [hlength, headSizes_equalMembers, hlen, Nat.mul_comm] at hle
  have hsize : ¬ max64 < elem.headSize * size.toNat := by omega
  rw [decodeValue, if_neg hsize, hbytes, ok_bind, ← hlen]
  exact (readRun_of_decodeMembers hread).bind (.inl rfl)

theorem readsBack_tuple {members : List (Member Ty)} {fields : List (Member Value)}
    (hfields : List.Forall₂ (fun m v => ReadsBack E m.val v) members (fields.map (·.val))) :
    ReadsBack E (.tuple members) (.tuple fields) := by
  intro b data pos h hstands hdata
  obtain ⟨_, ps, heq, -, hps, rfl⟩ := encodeValue_tuple h
  obtain rfl := Value.tuple.inj heq
  obtain ⟨hread, _, _⟩ := decodeMembers_of_readsBack hfields hps hstands hdata
  rw [decodeValue]
  exact hread.bind (.inl rfl)

/-! ### Values -/

theorem take_padRight {bs : Bytes} : bs.padRight.take bs.length = bs := by
  rw [Bytes.padRight, List.take_left]

theorem readBytes_padRight {bs : Bytes} (hpos : 1 ≤ bs.length) (hle : bs.length ≤ 32)
    (h : StandsAt data pos bs.padRight) : readBytes data pos 32 = .ok bs.padRight := by
  have hread := readBytes_of_standsAt h
  rw [length_padRight_of_le hpos hle] at hread
  exact hread

theorem roundTrips_of_isElementary {ty : Ty} (hty : ty.isElementary = true) : RoundTrips ty := by
  intro v b data pos h hstands hdata
  cases ty with
  | address =>
    obtain ⟨a, rfl, hb⟩ := encodeValue_address h
    rw [hb] at hstands
    rw [decodeValue, readWord_of_standsAt hstands, ok_bind, Address.toAddress_toWord]
    rfl
  | bool =>
    obtain ⟨x, rfl, hb⟩ := encodeValue_bool h
    rw [hb] at hstands
    have hle : x.toNat ≤ max64 := Nat.le_trans (Bool.toNat_le x) (by decide)
    rw [decodeValue, readWord_of_sizeWord hle hstands, ok_bind]
    cases x <;> rfl
  | uint w =>
    obtain ⟨word, bits, rfl, _, hb⟩ := encodeValue_uint h
    rw [hb] at hstands
    rw [decodeValue, readWord_of_standsAt hstands, ok_bind]
    rfl
  | int w =>
    obtain ⟨word, bits, rfl, _, hb⟩ := encodeValue_int h
    rw [hb] at hstands
    rw [decodeValue, readWord_of_standsAt hstands, ok_bind]
    rfl
  | fixedBytes w =>
    obtain ⟨bs, rfl, hlen, hb⟩ := encodeValue_fixedBytes h
    rw [hb] at hstands
    have hw := w.bytes_bounds
    rw [decodeValue, readBytes_padRight (by omega) (by omega) hstands, ok_bind, ← hlen,
      take_padRight]
    rfl
  | function =>
    obtain ⟨bs, rfl, hlen, hb⟩ := encodeValue_function h
    rw [hb] at hstands
    rw [decodeValue, readBytes_padRight (by omega) (by omega) hstands, ok_bind, ← hlen,
      take_padRight]
    rfl
  | _ => cases hty

theorem roundTrips_bytes : RoundTrips .bytes := by
  intro v b data pos h hstands hdata
  obtain ⟨bs, rfl, hb⟩ := encodeValue_bytes h
  rw [hb] at hstands
  rw [decodeValue, readLengthPrefixed_of_standsAt hdata hstands, ok_bind]
  rfl

theorem roundTrips_string : RoundTrips .string := by
  intro v b data pos h hstands hdata
  obtain ⟨s, rfl, hb⟩ := encodeValue_string h
  rw [hb] at hstands
  rw [decodeValue, readLengthPrefixed_of_standsAt hdata hstands, ok_bind, Text.ofUtf8Lossy_utf8]
  rfl

/-- Data does not show how many elements the value has: it is an array of some that take no bytes. -/
def Value.IsUncounted (ty : Ty) (v : Value) : Prop :=
  ∃ elem, ty = .array elem ∧ elem.headSize = 0 ∧ v.elements ≠ []

/-- A value is read back. It may be refused for the arrays in it of elements that take no bytes. -/
theorem readsBack_of_each {ty : Ty}
    (hv : Value.Each (fun ty v => v.IsUncounted ty →
      v.elements.length ≤ max64 ∧ E (.arrayTooLong v.elements.length)) ty v) : ReadsBack E ty v := by
  refine hv.induction ?plain ?array ?fixedArray ?tuple
  case plain =>
    intro ty v hty _ _
    cases ty with
    | address | bool | uint w | int w | fixedBytes w | function =>
      exact (roundTrips_of_isElementary rfl).readsBack v
    | bytes => exact roundTrips_bytes.readsBack v
    | string => exact roundTrips_string.readsBack v
    | _ => cases hty
  case array =>
    intro elem items huncounted hitems
    exact readsBack_array hitems fun hzero hne => huncounted ⟨elem, rfl, hzero, hne⟩
  case fixedArray =>
    intro elem size items _ _ hitems
    exact readsBack_fixedArray hitems size
  case tuple =>
    intro members fields _ hfields
    exact readsBack_tuple hfields

theorem each_not_isUncounted {ty : Ty} (hty : ty.elementsTakeBytes = true)
    (hv : Value.Each (fun _ _ => True) ty v) :
    Value.Each (fun ty v => ¬ v.IsUncounted ty) ty v := by
  revert hty
  refine hv.induction ?plain ?array ?fixedArray ?tuple
  case plain =>
    intro ty v hty hform _ _
    refine (Value.each_iff_of_not_isComposite hty).2 ⟨hform, ?_⟩
    rintro ⟨elem, rfl, -⟩
    cases hty
  case array =>
    intro elem items _ hitems hty
    simp only [Ty.elementsTakeBytes, Bool.and_eq_true, bne_iff_ne] at hty
    refine Value.each_array_iff.2 ⟨?_, fun item hitem => hitems item hitem hty.2⟩
    rintro ⟨elem', heq, hzero, -⟩
    obtain rfl := Ty.array.inj heq
    exact hty.1 hzero
  case fixedArray =>
    intro elem size items hlen _ hitems hty
    rw [Ty.elementsTakeBytes] at hty
    refine Value.each_fixedArray_iff.2 ⟨hlen, ?_, fun item hitem => hitems item hitem hty⟩
    rintro ⟨elem', heq, -⟩
    cases heq
  case tuple =>
    intro members fields _ hfields hty
    rw [Ty.elementsTakeBytes] at hty
    have hmembers := elementsTakeBytes_of_mem hty
    refine Value.each_tuple_iff.2 ⟨?_, ?_⟩
    · rintro ⟨elem', heq, -⟩
      cases heq
    · exact ((List.forall₂_and_left _ _).2 ⟨hmembers, hfields⟩).imp fun m v ⟨hm, hv⟩ => hv hm

theorem roundTrips {ty : Ty} (hty : ty.elementsTakeBytes = true) : RoundTrips ty := by
  intro v b data pos h hstands hdata
  have hcounted := each_not_isUncounted hty (each_of_encodeValue (fun _ => trivial) h)
  have hreads : ReadsBack (fun _ => False) ty v :=
    readsBack_of_each (hcounted.imp fun hnot huncounted => absurd huncounted hnot)
  exact finds_false_iff.1 (hreads b data pos h hstands hdata)

theorem map_retypeMembers_unnamed (types : List Ty) (values : List Value) :
    (Value.retypeMembers (types.map Member.unnamed) values).map (·.val) =
      List.zipWith Value.retype types values := by
  induction types generalizing values with
  | nil => rfl
  | cons ty types ih =>
    cases values with
    | nil => rfl
    | cons v values =>
      rw [List.map_cons, Value.retypeMembers, List.map_cons, ih, List.zipWith_cons_cons]
      rfl

theorem length_eq_of_encode {types : List Ty} {values : List Value} (h : encode types values = .ok b) :
    types.length = values.length := by
  rw [encode] at h
  split at h
  · next hlen => exact hlen
  · cases h

/-- Values that are read back each are decoded together. -/
theorem decode_of_readsBack {types : List Ty} {values : List Value}
    (hvalues : List.Forall₂ (ReadsBack E) types values) (hmemory : b.length ≤ max64)
    (h : encode types values = .ok b) :
    Finds E (decode types b) (List.zipWith Value.retype types values) := by
  rw [encode, if_pos hvalues.length_eq] at h
  obtain ⟨ps, hps, h⟩ := bind_eq_ok_iff.1 h
  have hstands : StandsAt b 0 (layout (Ty.headSizes (types.map Member.unnamed)) ps) := by
    rw [Except.ok.inj h]
    exact Bytes.standsAt_zero b
  have hmembers : List.Forall₂ (fun m v => ReadsBack E m.val v) (types.map Member.unnamed) values :=
    List.forall₂_map_left_iff.2 hvalues
  obtain ⟨hread, -, -⟩ := decodeMembers_of_readsBack hmembers hps hstands hmemory
  rw [decode, ← map_retypeMembers_unnamed]
  exact hread.bind (.inl rfl)

theorem decode_of_encode {types : List Ty} {values : List Value}
    (htypes : ∀ ty ∈ types, ty.elementsTakeBytes = true) (hmemory : b.length ≤ max64)
    (h : encode types values = .ok b) :
    decode types b = .ok (List.zipWith Value.retype types values) := by
  have hvalues : List.Forall₂ (ReadsBack fun _ => False) types values :=
    List.forall₂_iff_get.2 ⟨length_eq_of_encode h,
      fun i hi _ => (roundTrips (htypes _ (List.getElem_mem hi))).readsBack _⟩
  exact finds_false_iff.1 (decode_of_readsBack hvalues hmemory h)

/-- Decoding what values were encoded to gives them back, with the integer widths and the member names
    of their types, so that no other values are encoded alike. The length of a byte string in memory
    has 64 bits. -/
theorem decode_encode {types : List Ty} {values : List Value} {b : Bytes}
    (htypes : ∀ ty ∈ types, ty.elementsTakeBytes = true) (hmemory : b.length ≤ max64)
    (h : encode types values = .ok b) :
    decode types b = .ok (List.zipWith Value.retype types values) ∧
      ∀ values', encode types values' = .ok b →
        List.zipWith Value.retype types values' = List.zipWith Value.retype types values := by
  have hdecode := decode_of_encode htypes hmemory h
  refine ⟨hdecode, fun values' h' => ?_⟩
  have heq := (decode_of_encode htypes hmemory h').symm.trans hdecode
  exact Except.ok.inj heq

/-- A small integer beside a tuple of a dynamic array of strings, with a name, and a fixed array. -/
def nestedTypes : List Ty :=
  [.tuple [⟨some "names", .array .string⟩, ⟨none, .fixedArray (.uint ⟨0⟩) 2⟩], .int ⟨1⟩]

def nestedValues : List Value :=
  [.tuple [⟨none, .array [.string "ab", .string ""]⟩,
    ⟨some "pair", .fixedArray [.uint 7 256, .uint 255 8]⟩], .int (-1) 256]

def nestedBytes : Bytes :=
  sizeWord 64 ++ List.replicate 32 255 ++
    (sizeWord 96 ++ sizeWord 7 ++ sizeWord 255 ++
      (sizeWord 2 ++ (sizeWord 64 ++ sizeWord 128 ++ lengthPrefixed [97, 98] ++ lengthPrefixed [])))

theorem decode_encode_nested :
    encode nestedTypes nestedValues = .ok nestedBytes ∧
      decode nestedTypes nestedBytes =
        .ok [.tuple [⟨some "names", .array [.string "ab", .string ""]⟩,
          ⟨none, .fixedArray [.uint 7 8, .uint 255 8]⟩], .int (-1) 16] := by
  have hencode : encode nestedTypes nestedValues = .ok nestedBytes :=
    eq_ok_of_toOption (by decide +kernel)
  have htypes : ∀ ty ∈ nestedTypes, ty.elementsTakeBytes = true := by decide +kernel
  have hmemory : nestedBytes.length ≤ max64 := by decide +kernel
  exact ⟨hencode, (decode_encode htypes hmemory hencode).1⟩

end TxTrace.Abi

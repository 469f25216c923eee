import TxTrace.Proofs.Abi.Size
import TxTrace.Proofs.Machine.Decode

/-!
Encoding on a machine, where offsets have 64 bits. The offset of a dynamic value is the length of the head
and that of the tail so far, and the sum of both may overflow: the length of the head is that of all types,
and values are not checked against theirs before they are encoded. `Overflows` says which values
lead there, and with all others encoding comes out as it does with numbers (`encode_overflow_iff`).
-/

namespace TxTrace.Machine

open Abi (EncodeError Member Piece Ty Value equalMembers forall_equalMembers layout layoutFrom sizeWord)

/-! ### Overflows -/

/-- The offset of the tail of a sequence. Sizes stop at the largest one. -/
def tailStart (members : List (Member Ty)) : Nat := min (Ty.headSizes members) max64

/-- The offset behind the encoding of a member, `offset` being that before it. -/
def nextOffset (offset : Nat) (isDynamic : Bool) (content : Bytes) : Nat :=
  if isDynamic then offset + content.length else offset

mutual

/-- Encoding the value adds up to an offset of more than 64 bits. -/
inductive Overflows : Ty → Value → Prop
  | array {elem : Ty} {items : List Value}
      (h : OverflowsFrom (tailStart (equalMembers elem items.length))
        (equalMembers elem items.length) items) :
      Overflows (.array elem) (.array items)
  | fixedArray {elem : Ty} {size : UInt64} {items : List Value} (hlen : items.length = size.toNat)
      (h : OverflowsFrom (tailStart (equalMembers elem items.length))
        (equalMembers elem items.length) items) :
      Overflows (.fixedArray elem size) (.fixedArray items)
  | tuple {members : List (Member Ty)} {fields : List (Member Value)}
      (hlen : members.length = fields.length)
      (h : OverflowsFrom (tailStart members) members (fields.map (·.val))) :
      Overflows (.tuple members) (.tuple fields)

/-- So does encoding the members of a sequence, `offset` being that of the end of the tail so far. Members
    before that have an encoding. -/
inductive OverflowsFrom : (offset : Nat) → List (Member Ty) → List Value → Prop
  | inside {offset : Nat} {m : Member Ty} {ms : List (Member Ty)} {v : Value} {vs : List Value}
      (h : Overflows m.val v) : OverflowsFrom offset (m :: ms) (v :: vs)
  | offset {offset : Nat} {m : Member Ty} {ms : List (Member Ty)} {v : Value} {vs : List Value}
      {content : Bytes} (hcontent : Abi.encodeValue m.val v = .ok content)
      (hdynamic : m.val.isDynamic = true) (hlarge : max64 < offset) :
      OverflowsFrom offset (m :: ms) (v :: vs)
  | later {offset : Nat} {m : Member Ty} {ms : List (Member Ty)} {v : Value} {vs : List Value}
      {content : Bytes} (hcontent : Abi.encodeValue m.val v = .ok content)
      (h : OverflowsFrom (nextOffset offset m.val.isDynamic content) ms vs) :
      OverflowsFrom offset (m :: ms) (v :: vs)

end

/-! ### Sequences -/

namespace Written

/-- What was written, with members laid out behind it. -/
def extend (w : Written) (offset : Nat) (ps : List Piece) : Written :=
  ⟨w.head ++ (layoutFrom offset ps).1, w.tail ++ (layoutFrom offset ps).2⟩

theorem extend_nil (w : Written) (offset : Nat) : w.extend offset [] = w := by
  simp [extend, layoutFrom]

/-- The next member is laid out at the offset of the end of the tail so far. -/
theorem put_eq_extend (w : Written) (isDynamic : Bool) (headLen : UInt64) (content : Bytes) :
    OverflowsWhen (isDynamic = true ∧ max64 < headLen.toNat + w.tail.length)
      (w.put isDynamic headLen content)
      (.ok (w.extend (headLen.toNat + w.tail.length) [⟨isDynamic, content⟩])) := by
  cases isDynamic with
  | true =>
    rw [put, if_pos rfl, addLength]
    split
    · next hle =>
      have hlen : (length w.tail).toNat = w.tail.length := toNat_length (by omega)
      have hoffset : (headLen + length w.tail).toNat = headLen.toNat + w.tail.length := by
        rw [toNat_add (by rw [hlen]; exact hle), hlen]
      refine .of_eq (fun h => absurd h.2 (Nat.not_lt.2 hle)) ?_
      rw [ok_bind, hoffset]
      simp [extend, layoutFrom, pure, Except.pure, Except.mapError]
    · next hgt => exact ⟨fun _ => rfl, fun hnot => absurd ⟨rfl, Nat.not_le.1 hgt⟩ hnot⟩
  | false =>
    refine .of_eq (fun h => Bool.false_ne_true h.1) ?_
    simp [put, extend, layoutFrom, pure, Except.pure, Except.mapError]

theorem offset_extend (w : Written) (headLen offset : Nat) (p : Piece) :
    headLen + (w.extend offset [p]).tail.length =
      nextOffset (headLen + w.tail.length) p.isDynamic p.content := by
  cases hp : p.isDynamic <;> simp [extend, layoutFrom, nextOffset, hp, Nat.add_assoc]

theorem extend_extend (w : Written) (offset : Nat) (p : Piece) (ps : List Piece) :
    (w.extend offset [p]).extend (nextOffset offset p.isDynamic p.content) ps =
      w.extend offset (p :: ps) := by
  cases hp : p.isDynamic <;> simp [extend, layoutFrom, nextOffset, hp]

end Written

theorem overflowsFrom_cons {offset : Nat} {m : Member Ty} {ms : List (Member Ty)} {v : Value}
    {vs : List Value} :
    OverflowsFrom offset (m :: ms) (v :: vs) ↔
      Overflows m.val v ∨ ∃ content, Abi.encodeValue m.val v = .ok content ∧
        ((m.val.isDynamic = true ∧ max64 < offset) ∨
          OverflowsFrom (nextOffset offset m.val.isDynamic content) ms vs) := by
  constructor
  · intro h
    cases h with
    | inside h => exact .inl h
    | offset hcontent hdynamic hlarge => exact .inr ⟨_, hcontent, .inl ⟨hdynamic, hlarge⟩⟩
    | later hcontent h => exact .inr ⟨_, hcontent, .inr h⟩
  · rintro (h | ⟨content, hcontent, ⟨hdynamic, hlarge⟩ | h⟩)
    · exact .inside h
    · exact .offset hcontent hdynamic hlarge
    · exact .later hcontent h

theorem map_encodeMembers_cons {α : Type} (f : List Piece → α) (m : Member Ty) (ms : List (Member Ty))
    (v : Value) (vs : List Value) :
    (Abi.encodeMembers (m :: ms) (v :: vs)).map f =
      Abi.encodeValue m.val v >>= fun content =>
        (Abi.encodeMembers ms vs).map fun ps => f (⟨m.val.isDynamic, content⟩ :: ps) := by
  rw [Abi.encodeMembers]
  cases Abi.encodeValue m.val v with
  | error e => rfl
  | ok content => cases Abi.encodeMembers ms vs <;> rfl

/-- Encoding a value of the type overflows, or comes out as it does with numbers. -/
def EncodesOrOverflows (ty : Ty) : Prop :=
  ∀ v, OverflowsWhen (Overflows ty v) (encodeValue ty v) (Abi.encodeValue ty v)

/-- Without members or without values, nothing is written. -/
theorem encodeMembers_eq_extend_nil {ms : List (Member Ty)} {vs : List Value} (h : ms = [] ∨ vs = [])
    (offset : Nat) (headLen : UInt64) (w : Written) :
    OverflowsWhen (OverflowsFrom offset ms vs) (encodeMembers ms headLen w vs)
      ((Abi.encodeMembers ms vs).map (w.extend offset)) := by
  refine .of_eq (fun hfrom => ?_) ?_
  · cases hfrom <;> simp at h
  · have hwritten : encodeMembers ms headLen w vs = .ok w := by
      rcases h with rfl | rfl
      · rw [encodeMembers]
        simp
      · rw [encodeMembers]
        simp
    have hpieces : Abi.encodeMembers ms vs = .ok [] := by
      rcases h with rfl | rfl
      · rw [Abi.encodeMembers]
        · rfl
        · simp
      · rw [Abi.encodeMembers]
        · rfl
        · simp
    rw [hwritten, hpieces]
    exact congrArg Except.ok (w.extend_nil _).symm

/-- The members of a sequence, behind what was written of it. -/
theorem encodeMembers_eq_extend {ms : List (Member Ty)}
    (hms : ∀ m ∈ ms, EncodesOrOverflows m.val) (headLen : UInt64) (w : Written) (vs : List Value) :
    OverflowsWhen (OverflowsFrom (headLen.toNat + w.tail.length) ms vs)
      (encodeMembers ms headLen w vs)
      ((Abi.encodeMembers ms vs).map (w.extend (headLen.toNat + w.tail.length))) := by
  induction ms generalizing w vs with
  | nil => exact encodeMembers_eq_extend_nil (.inl rfl) _ headLen w
  | cons m ms ih =>
    cases vs with
    | nil => exact encodeMembers_eq_extend_nil (.inr rfl) _ headLen w
    | cons v vs =>
      rw [encodeMembers, map_encodeMembers_cons]
      refine ((hms m List.mem_cons_self v).bind fun content _ => ?_).congr overflowsFrom_cons.symm
      have hrest := ih (fun m hm => hms m (List.mem_cons_of_mem _ hm))
        (w.extend (headLen.toNat + w.tail.length) [⟨m.val.isDynamic, content⟩]) vs
      rw [Written.offset_extend, funext (w.extend_extend _ _)] at hrest
      exact (w.put_eq_extend m.val.isDynamic headLen content).bind_ok hrest

/-! ### Values -/

/-- The items of an array are the members of a tuple of equal ones. -/
theorem encodeItems_eq_encodeMembers (elem : Ty) (headLen : UInt64) (w : Written) (items : List Value) :
    encodeItems (encodeValue elem) elem.isDynamic headLen w items =
      encodeMembers (equalMembers elem items.length) headLen w items := by
  induction items generalizing w with
  | nil =>
    rw [encodeItems, encodeMembers]
    simp
  | cons v vs ih =>
    rw [List.length_cons, Abi.equalMembers_succ, encodeItems, encodeMembers]
    simp only [ih]

theorem toNat_headSizes_zero (ms : List (Member Ty)) : (headSizes 0 ms).toNat = tailStart ms := by
  rw [tailStart, toNat_headSizes fun m _ => toNat_headSize m.val, UInt64.toNat_zero, Nat.zero_add]

/-- A sequence comes out as its layout. -/
theorem bytes_encodeMembers {ms : List (Member Ty)}
    (hms : ∀ m ∈ ms, EncodesOrOverflows m.val) (vs : List Value) (f : Bytes → Bytes) :
    OverflowsWhen (OverflowsFrom (tailStart ms) ms vs)
      (encodeMembers ms (headSizes 0 ms) .empty vs >>= fun w => pure (f w.bytes))
      (Abi.encodeMembers ms vs >>= fun ps => pure (f (layout (Ty.headSizes ms) ps))) := by
  have hbytes : ((Abi.encodeMembers ms vs).map (Written.empty.extend (headSizes 0 ms).toNat) >>=
      fun w => pure (f w.bytes)) =
      Abi.encodeMembers ms vs >>= fun ps => pure (f (layout (Ty.headSizes ms) ps)) := by
    rw [toNat_headSizes_zero]
    cases Abi.encodeMembers ms vs <;> rfl
  rw [← hbytes, ← toNat_headSizes_zero]
  exact (encodeMembers_eq_extend hms (headSizes 0 ms) .empty vs).bind_pure fun w => f w.bytes

theorem bytes_encodeItems {elem : Ty} (helem : EncodesOrOverflows elem) (items : List Value)
    (f : Bytes → Bytes) :
    OverflowsWhen
      (OverflowsFrom (tailStart (equalMembers elem items.length)) (equalMembers elem items.length) items)
      (encodeItems (encodeValue elem) elem.isDynamic (headSizes 0 (equalMembers elem items.length))
        .empty items >>= fun w => pure (f w.bytes))
      (items.mapM (Abi.encodeValue elem) >>= fun contents =>
        pure (f (layout (items.length * elem.headSize) (contents.map (Piece.mk elem.isDynamic))))) := by
  have hmembers := bytes_encodeMembers (forall_equalMembers helem items.length) items f
  rw [Abi.encodeMembers_equalMembers, Abi.headSizes_equalMembers, bind_assoc] at hmembers
  simpa only [encodeItems_eq_encodeMembers, pure_bind] using hmembers

theorem encodesOrOverflows (ty : Ty) : EncodesOrOverflows ty := by
  induction ty using Ty.induct with
  | array elem ih =>
    intro v
    cases v with
    | array items =>
      rw [encodeValue, Abi.encodeValue]
      refine (bytes_encodeItems ih items fun bs => sizeWord items.length ++ bs).congr
        ⟨.array, fun h => ?_⟩
      cases h with
      | array h => exact h
    | _ => exact .of_eq (fun h => nomatch h) (by rw [encodeValue] <;> simp)
  | fixedArray elem size ih =>
    intro v
    cases v with
    | fixedArray items =>
      rw [encodeValue, Abi.encodeValue]
      split
      · next hlen =>
        refine (bytes_encodeItems ih items id).congr ⟨.fixedArray hlen, fun h => ?_⟩
        cases h with
        | fixedArray _ h => exact h
      · next hlen =>
        refine .of_eq (fun h => ?_) rfl
        cases h with
        | fixedArray h => exact hlen h
    | _ => exact .of_eq (fun h => nomatch h) (by rw [encodeValue] <;> simp)
  | tuple members ih =>
    intro v
    cases v with
    | tuple fields =>
      rw [encodeValue, Abi.encodeValue]
      split
      · next hlen =>
        have hfields := bytes_encodeMembers ih (fields.map (·.val)) id
        refine hfields.congr ⟨.tuple hlen, fun h => ?_⟩
        cases h with
        | tuple _ h => exact h
      · next hlen =>
        refine .of_eq (fun h => ?_) rfl
        cases h with
        | tuple h => exact hlen h
    | _ => exact .of_eq (fun h => nomatch h) (by rw [encodeValue] <;> simp)
  | _ => exact fun v => .of_eq (fun h => nomatch h) (by rw [encodeValue] <;> simp)

/-! ### Values of their types -/

/-- No value of the type overflows whose encoding fits in memory. -/
def NoneOverflows (ty : Ty) : Prop :=
  ∀ v b, Abi.encodeValue ty v = .ok b → b.length ≤ max64 → ¬ Overflows ty v

theorem not_overflowsFrom {ms : List (Member Ty)} {vs : List Value} {ps : List Piece} {offset : Nat}
    (hms : ∀ m ∈ ms, NoneOverflows m.val) (h : Abi.encodeMembers ms vs = .ok ps)
    (hhead : (layoutFrom offset ps).1.length ≤ max64)
    (htail : offset + (layoutFrom offset ps).2.length ≤ max64) : ¬ OverflowsFrom offset ms vs := by
  induction ms generalizing vs ps offset with
  | nil => exact fun hfrom => nomatch hfrom
  | cons m ms ih =>
    cases vs with
    | nil => exact fun hfrom => nomatch hfrom
    | cons v vs =>
      obtain ⟨content, rest, hcontent, hrest, rfl⟩ := Abi.encodeMembers_cons h
      rw [overflowsFrom_cons]
      have hsizes : content.length ≤ max64 ∧
          (layoutFrom (nextOffset offset m.val.isDynamic content) rest).1.length ≤ max64 ∧
          nextOffset offset m.val.isDynamic content +
            (layoutFrom (nextOffset offset m.val.isDynamic content) rest).2.length ≤ max64 := by
        cases hdynamic : m.val.isDynamic with
        | true =>
          rw [hdynamic, Abi.layoutFrom_of_isDynamic rfl] at hhead htail
          simp only [List.length_append] at hhead htail
          simp only [nextOffset, if_true]
          omega
        | false =>
          rw [hdynamic, Abi.layoutFrom_of_not_isDynamic rfl] at hhead htail
          simp only [List.length_append] at hhead htail
          simp only [nextOffset, Bool.false_eq_true, if_false]
          omega
      rintro (hinside | ⟨content', hcontent', ⟨-, hlarge⟩ | hlater⟩)
      · exact hms m List.mem_cons_self v content hcontent hsizes.1 hinside
      · omega
      · obtain rfl := Except.ok.inj (hcontent.symm.trans hcontent')
        exact ih (fun m hm => hms m (List.mem_cons_of_mem _ hm)) hrest hsizes.2.1 hsizes.2.2 hlater

/-- The head of a layout that fits in memory is as long as the types say. -/
theorem not_overflowsFrom_of_layout {ms : List (Member Ty)} {vs : List Value} {ps : List Piece}
    (hms : ∀ m ∈ ms, NoneOverflows m.val) (h : Abi.encodeMembers ms vs = .ok ps)
    (hlen : ms.length = vs.length) (hle : (layout (Ty.headSizes ms) ps).length ≤ max64) :
    ¬ OverflowsFrom (tailStart ms) ms vs := by
  have hstart : tailStart ms = min (Ty.headSizes ms) max64 := rfl
  rw [layout, List.length_append, ← hstart] at hle
  have hhead := Abi.length_head_layoutFrom (tailStart ms) ps
  have hsum := Abi.sum_headSize (fun m _ => Abi.length_of_encodeValue m.val) h hlen (by omega)
  exact not_overflowsFrom hms h (by omega) (by omega)

theorem noneOverflows (ty : Ty) : NoneOverflows ty := by
  induction ty using Ty.induct with
  | array elem ih =>
    intro v b h hle hoverflows
    obtain ⟨items, ps, rfl, hps, hb⟩ := Abi.encodeValue_array h
    cases hoverflows with
    | array hfrom =>
      rw [hb, List.length_append] at hle
      exact not_overflowsFrom_of_layout (forall_equalMembers ih items.length) hps
        (by simp [equalMembers]) (by omega) hfrom
  | fixedArray elem size ih =>
    intro v b h hle hoverflows
    obtain ⟨items, ps, rfl, -, hps, rfl⟩ := Abi.encodeValue_fixedArray h
    cases hoverflows with
    | fixedArray _ hfrom =>
      exact not_overflowsFrom_of_layout (forall_equalMembers ih items.length) hps
        (by simp [equalMembers]) hle hfrom
  | tuple members ih =>
    intro v b h hle hoverflows
    obtain ⟨fields, ps, rfl, hlen, hps, rfl⟩ := Abi.encodeValue_tuple h
    cases hoverflows with
    | tuple _ hfrom => exact not_overflowsFrom_of_layout ih hps (by simpa using hlen) hle hfrom
  | _ =>
    intro v b _ _ h
    cases h

theorem overflowsWhen_encode (types : List Ty) (values : List Value) :
    OverflowsWhen
      (types.length = values.length ∧
        OverflowsFrom (tailStart (types.map Member.unnamed)) (types.map Member.unnamed) values)
      (encode types values) (Abi.encode types values) := by
  rw [encode, Abi.encode]
  split
  · next hlen =>
    have hmembers := bytes_encodeMembers (fun m (_ : m ∈ types.map Member.unnamed) =>
      encodesOrOverflows m.val) values id
    exact hmembers.congr ⟨fun h => ⟨hlen, h⟩, And.right⟩
  · next hlen => exact .of_eq (fun h => hlen h.1) rfl

theorem overflowsWhen_encodeCall (selector : Selector) (types : List Ty) (values : List Value) :
    OverflowsWhen
      (types.length = values.length ∧
        OverflowsFrom (tailStart (types.map Member.unnamed)) (types.map Member.unnamed) values)
      (encodeCall selector types values) (Abi.encodeCall selector types values) :=
  (overflowsWhen_encode types values).bind_pure fun body => selector.toBytes ++ body

/-- No offset of an encoding overflows that fits in memory. -/
theorem encode_eq_ok {types : List Ty} {values : List Value} {b : Bytes}
    (h : Abi.encode types values = .ok b) (hle : b.length ≤ max64) : encode types values = .ok b := by
  have hfits : ¬ (types.length = values.length ∧
      OverflowsFrom (tailStart (types.map Member.unnamed)) (types.map Member.unnamed) values) := by
    rintro ⟨hlen, hfrom⟩
    rw [Abi.encode, if_pos hlen] at h
    obtain ⟨ps, hps, hbytes⟩ := bind_eq_ok_iff.1 h
    rw [← Except.ok.inj hbytes] at hle
    exact not_overflowsFrom_of_layout (fun m _ => noneOverflows m.val) hps (by simpa using hlen) hle hfrom
  rw [(overflowsWhen_encode types values).eq hfits, h]
  rfl

/-- Encoding on a machine overflows just if the offset of a dynamic value does, where the values before it
    have encodings. It comes out as it does with numbers otherwise. What fits in memory is an encoding on a
    machine just if it is one with numbers. -/
theorem encode_overflow_iff (types : List Ty) (values : List Value) :
    (encode types values = .error (.fault .overflow) ↔
      types.length = values.length ∧
        OverflowsFrom (tailStart (types.map Member.unnamed)) (types.map Member.unnamed) values) ∧
    (encode types values ≠ .error (.fault .overflow) →
      encode types values = (Abi.encode types values).mapError .error) ∧
    ∀ b, b.length ≤ max64 → (encode types values = .ok b ↔ Abi.encode types values = .ok b) := by
  have hencode := overflowsWhen_encode types values
  refine ⟨hencode.fault_iff, fun hne => hencode.eq (mt hencode.fault hne),
    fun b hle => ⟨hencode.eq_ok, fun h => encode_eq_ok h hle⟩⟩

theorem encode_overflow_iff_strings :
    encode [.string, .uint ⟨0⟩] [.string "hi", .uint 7 8] =
        (Abi.encode [.string, .uint ⟨0⟩] [.string "hi", .uint 7 8]).mapError .error ∧
      ∃ b, Abi.encode [.string, .uint ⟨0⟩] [.string "hi", .uint 7 8] = .ok b ∧ b.length ≤ max64 ∧
        encode [.string, .uint ⟨0⟩] [.string "hi", .uint 7 8] = .ok b := by
  have hb : ∃ b, Abi.encode [.string, .uint ⟨0⟩] [.string "hi", .uint 7 8] = .ok b ∧
      b.length ≤ max64 := ⟨_, rfl, by decide +kernel⟩
  obtain ⟨b, hencode, hle⟩ := hb
  have hiff := encode_overflow_iff [.string, .uint ⟨0⟩] [.string "hi", .uint 7 8]
  have hok := (hiff.2.2 b hle).2 hencode
  refine ⟨hiff.2.1 ?_, b, hencode, hle, hok⟩
  rw [hok]
  exact fun hfault => nomatch hfault

/-- With an array that fits in no memory the head is as long as the largest size, and there is no offset for
    the second string. The value of the array would be found not to be of its type after that. -/
theorem not_forall_encode_ne_fault :
    ¬ ∀ (texts : List String) (types : List Ty) (values : List Value),
      texts.mapM Ty.parse = .ok types → ∀ f, encode types values ≠ .error (.fault f) := by
  intro h
  have htypes : ["string", "string", "uint256[576460752303423488]"].mapM Ty.parse =
      .ok [.string, .string, .fixedArray (.uint .word) 576460752303423488] := by cbv
  have hfault : encode [.string, .string, .fixedArray (.uint .word) 576460752303423488]
      [.string "", .string "", .fixedArray []] = .error (.fault .overflow) := rfl
  exact h _ _ _ htypes .overflow hfault

end TxTrace.Machine

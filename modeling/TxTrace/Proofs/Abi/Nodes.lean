import Mathlib.Data.List.Forall2
import TxTrace.Proofs.Abi.Size

/-!
The nodes of values: a value, the elements of arrays and the members of tuples in it, and what they are
made of in turn. `Value.Each P ty v` says that `v` has the form of the type `ty` and that its nodes have
the property `P`, and what holds of every value that has an encoding holds of all nodes of such a value
(`each_of_encodeValue`).
-/

namespace TxTrace.Abi

/-- Types of values that are made of values. -/
def Ty.isComposite : Ty → Bool
  | .array _ | .fixedArray _ _ | .tuple _ => true
  | _ => false

namespace Value

/-- The value is of the kind that the type asks for, whatever its widths, its names and its nodes. -/
def IsOf : Ty → Value → Prop
  | .address, .address _ | .bool, .bool _ | .uint _, .uint .. | .int _, .int .. => True
  | .fixedBytes _, .fixedBytes _ | .function, .fixedBytes _ => True
  | .bytes, .bytes _ | .string, .string _ => True
  | .array _, .array _ | .tuple _, .tuple _ => True
  | .fixedArray _ size, .fixedArray items => items.length = size.toNat
  | _, _ => False

/-- The elements of a value that is an array. -/
def elements : Value → List Value
  | .array items | .fixedArray items => items
  | _ => []

mutual

/-- The value has the form of the type, and each node of it has, with its own type, the property `P`. -/
def Each (P : Ty → Value → Prop) (ty : Ty) (v : Value) : Prop :=
  v.IsOf ty ∧ P ty v ∧
    match ty, v with
    | .array elem, .array items => ∀ item ∈ items, Each P elem item
    | .fixedArray elem _, .fixedArray items => ∀ item ∈ items, Each P elem item
    | .tuple members, .tuple fields => EachMember P members (fields.map (·.val))
    | _, _ => True

/-- The values have the forms of the members of a tuple, with the property `P` at each node. -/
def EachMember (P : Ty → Value → Prop) : List (Member Ty) → List Value → Prop
  | [], [] => True
  | m :: ms, v :: vs => Each P m.val v ∧ EachMember P ms vs
  | _, _ => False

end

variable {P Q : Ty → Value → Prop} {ty elem : Ty} {v : Value} {items : List Value}

theorem Each.isOf (h : Each P ty v) : v.IsOf ty := by
  unfold Each at h
  exact h.1

theorem Each.holds (h : Each P ty v) : P ty v := by
  unfold Each at h
  exact h.2.1

theorem each_iff_of_not_isComposite (hty : ty.isComposite = false) :
    Each P ty v ↔ v.IsOf ty ∧ P ty v := by
  unfold Each
  cases ty with
  | array elem => cases hty
  | fixedArray elem size => cases hty
  | tuple members => cases hty
  | _ => simp

theorem each_array_iff :
    Each P (.array elem) (.array items) ↔
      P (.array elem) (.array items) ∧ ∀ item ∈ items, Each P elem item := by
  rw [Each]
  simp [IsOf]

theorem each_fixedArray_iff {size : UInt64} :
    Each P (.fixedArray elem size) (.fixedArray items) ↔
      items.length = size.toNat ∧ P (.fixedArray elem size) (.fixedArray items) ∧
        ∀ item ∈ items, Each P elem item := by
  rw [Each]
  simp [IsOf]

theorem eachMember_iff {ms : List (Member Ty)} {vs : List Value} :
    EachMember P ms vs ↔ List.Forall₂ (fun m v => Each P m.val v) ms vs := by
  induction ms generalizing vs with
  | nil => cases vs <;> simp [EachMember]
  | cons m ms ih =>
    cases vs with
    | nil => simp [EachMember]
    | cons v vs => rw [EachMember, ih, List.forall₂_cons]

theorem each_tuple_iff {members : List (Member Ty)} {fields : List (Member Value)} :
    Each P (.tuple members) (.tuple fields) ↔
      P (.tuple members) (.tuple fields) ∧
        List.Forall₂ (fun m v => Each P m.val v) members (fields.map (·.val)) := by
  rw [Each, ← eachMember_iff]
  simp [IsOf]

/-- Induction over a value along the type whose form it has. -/
@[elab_as_elim]
theorem Each.induction {motive : Ty → Value → Prop}
    (plain : ∀ {ty v}, ty.isComposite = false → v.IsOf ty → P ty v → motive ty v)
    (array : ∀ {elem items}, P (.array elem) (.array items) → (∀ item ∈ items, motive elem item) →
      motive (.array elem) (.array items))
    (fixedArray : ∀ {elem size items}, items.length = size.toNat →
      P (.fixedArray elem size) (.fixedArray items) → (∀ item ∈ items, motive elem item) →
      motive (.fixedArray elem size) (.fixedArray items))
    (tuple : ∀ {members fields}, P (.tuple members) (.tuple fields) →
      List.Forall₂ (fun m v => motive m.val v) members (fields.map (·.val)) →
      motive (.tuple members) (.tuple fields))
    (h : Each P ty v) : motive ty v := by
  induction ty using Ty.induct generalizing v with
  | address | bool | uint w | int w | fixedBytes w | function | bytes | string =>
    exact plain rfl h.isOf h.holds
  | array elem ih =>
    cases v with
    | array items =>
      obtain ⟨hnode, hitems⟩ := each_array_iff.1 h
      exact array hnode fun item hitem => ih (hitems item hitem)
    | _ => exact h.isOf.elim
  | fixedArray elem size ih =>
    cases v with
    | fixedArray items =>
      obtain ⟨hlen, hnode, hitems⟩ := each_fixedArray_iff.1 h
      exact fixedArray hlen hnode fun item hitem => ih (hitems item hitem)
    | _ => exact h.isOf.elim
  | tuple members ih =>
    cases v with
    | tuple fields =>
      obtain ⟨hnode, hfields⟩ := each_tuple_iff.1 h
      have hmembers := (List.forall₂_and_left _ _).2 ⟨ih, hfields⟩
      exact tuple hnode (hmembers.imp fun m v ⟨ihm, hv⟩ => ihm hv)
    | _ => exact h.isOf.elim

theorem Each.imp (hPQ : ∀ {ty v}, P ty v → Q ty v) (h : Each P ty v) : Each Q ty v := by
  refine h.induction ?plain ?array ?fixedArray ?tuple
  case plain =>
    intro ty v hty hform hnode
    exact (each_iff_of_not_isComposite hty).2 ⟨hform, hPQ hnode⟩
  case array =>
    intro elem items hnode hitems
    exact each_array_iff.2 ⟨hPQ hnode, hitems⟩
  case fixedArray =>
    intro elem size items hlen hnode hitems
    exact each_fixedArray_iff.2 ⟨hlen, hPQ hnode, hitems⟩
  case tuple =>
    intro members fields hnode hfields
    exact each_tuple_iff.2 ⟨hPQ hnode, hfields⟩

theorem Each.and (hP : Each P ty v) (hQ : Each Q ty v) :
    Each (fun ty v => P ty v ∧ Q ty v) ty v := by
  revert hQ
  refine hP.induction ?plain ?array ?fixedArray ?tuple
  case plain =>
    intro ty v hty hform hnode hQ
    exact (each_iff_of_not_isComposite hty).2 ⟨hform, hnode, hQ.holds⟩
  case array =>
    intro elem items hnode hitems hQ
    obtain ⟨hnode', hparts⟩ := each_array_iff.1 hQ
    exact each_array_iff.2 ⟨⟨hnode, hnode'⟩, fun item hitem => hitems item hitem (hparts item hitem)⟩
  case fixedArray =>
    intro elem size items hlen hnode hitems hQ
    obtain ⟨_, hnode', hparts⟩ := each_fixedArray_iff.1 hQ
    exact each_fixedArray_iff.2
      ⟨hlen, ⟨hnode, hnode'⟩, fun item hitem => hitems item hitem (hparts item hitem)⟩
  case tuple =>
    intro members fields hnode hfields hQ
    obtain ⟨hnode', hparts⟩ := each_tuple_iff.1 hQ
    exact each_tuple_iff.2 ⟨⟨hnode, hnode'⟩, hfields.mp (fun m v => id) hparts⟩

end Value

/-! ### What has an encoding -/

variable {P : Ty → Value → Prop} {ty elem : Ty} {v : Value} {b : Bytes}

/-- The members of a sequence have an encoding together if each of them has one. -/
theorem exists_encodeMembers_iff {ms : List (Member Ty)} {vs : List Value}
    (hlen : ms.length = vs.length) :
    (∃ ps, encodeMembers ms vs = .ok ps) ↔
      List.Forall₂ (fun m v => ∃ b, encodeValue m.val v = .ok b) ms vs := by
  induction ms generalizing vs with
  | nil =>
    obtain rfl := List.length_eq_zero_iff.1 hlen.symm
    simp [encodeMembers, pure, Except.pure]
  | cons m ms ih =>
    obtain ⟨v, vs, rfl⟩ := List.exists_cons_of_length_eq_add_one hlen.symm
    rw [List.forall₂_cons, ← ih (by simpa using hlen)]
    constructor
    · rintro ⟨ps, hps⟩
      obtain ⟨content, rest, hcontent, hrest, -⟩ := encodeMembers_cons hps
      exact ⟨⟨content, hcontent⟩, rest, hrest⟩
    · rintro ⟨⟨content, hcontent⟩, rest, hrest⟩
      refine ⟨⟨m.val.isDynamic, content⟩ :: rest, ?_⟩
      rw [encodeMembers, hcontent, ok_bind, hrest, ok_bind]
      rfl

/-- So do the items of an array. -/
theorem exists_encodeMembers_equalMembers_iff {items : List Value} :
    (∃ ps, encodeMembers (equalMembers elem items.length) items = .ok ps) ↔
      ∀ item ∈ items, ∃ b, encodeValue elem item = .ok b := by
  rw [exists_encodeMembers_iff (by simp [equalMembers])]
  induction items with
  | nil => simp [equalMembers]
  | cons item items ih =>
    rw [List.length_cons, equalMembers_succ, List.forall₂_cons, ih, List.forall_mem_cons]

theorem isOf_of_encodeValue (h : encodeValue ty v = .ok b) : v.IsOf ty := by
  cases ty with
  | address =>
    obtain ⟨a, rfl, -⟩ := encodeValue_address h
    trivial
  | bool =>
    obtain ⟨x, rfl, -⟩ := encodeValue_bool h
    trivial
  | uint w =>
    obtain ⟨word, bits, rfl, -⟩ := encodeValue_uint h
    trivial
  | int w =>
    obtain ⟨word, bits, rfl, -⟩ := encodeValue_int h
    trivial
  | fixedBytes w =>
    obtain ⟨bs, rfl, -⟩ := encodeValue_fixedBytes h
    trivial
  | function =>
    obtain ⟨bs, rfl, -⟩ := encodeValue_function h
    trivial
  | bytes =>
    obtain ⟨bs, rfl, -⟩ := encodeValue_bytes h
    trivial
  | string =>
    obtain ⟨s, rfl, -⟩ := encodeValue_string h
    trivial
  | array elem =>
    obtain ⟨items, ps, rfl, -⟩ := encodeValue_array h
    trivial
  | fixedArray elem size =>
    obtain ⟨items, ps, rfl, hlen, -⟩ := encodeValue_fixedArray h
    exact hlen
  | tuple members =>
    obtain ⟨fields, ps, rfl, -⟩ := encodeValue_tuple h
    trivial

/-- Every node of a value that has an encoding has one itself. -/
theorem each_of_encodeValue (hP : ∀ {ty v b}, encodeValue ty v = .ok b → P ty v)
    (h : encodeValue ty v = .ok b) : Value.Each P ty v := by
  induction ty using Ty.induct generalizing v b with
  | address | bool | uint w | int w | fixedBytes w | function | bytes | string =>
    exact (Value.each_iff_of_not_isComposite rfl).2 ⟨isOf_of_encodeValue h, hP h⟩
  | array elem ih =>
    have hnode := hP h
    obtain ⟨items, ps, rfl, hps, -⟩ := encodeValue_array h
    refine Value.each_array_iff.2 ⟨hnode, fun item hitem => ?_⟩
    obtain ⟨b', hb'⟩ := exists_encodeMembers_equalMembers_iff.1 ⟨ps, hps⟩ item hitem
    exact ih hb'
  | fixedArray elem size ih =>
    have hnode := hP h
    obtain ⟨items, ps, rfl, hlen, hps, -⟩ := encodeValue_fixedArray h
    refine Value.each_fixedArray_iff.2 ⟨hlen, hnode, fun item hitem => ?_⟩
    obtain ⟨b', hb'⟩ := exists_encodeMembers_equalMembers_iff.1 ⟨ps, hps⟩ item hitem
    exact ih hb'
  | tuple members ih =>
    have hnode := hP h
    obtain ⟨fields, ps, rfl, hlen, hps, -⟩ := encodeValue_tuple h
    have hfields := (exists_encodeMembers_iff (by simpa using hlen)).1 ⟨ps, hps⟩
    have hmembers := (List.forall₂_and_left _ _).2 ⟨ih, hfields⟩
    exact Value.each_tuple_iff.2 ⟨hnode, hmembers.imp fun m v ⟨ihm, b', hb'⟩ => ihm hb'⟩

end TxTrace.Abi

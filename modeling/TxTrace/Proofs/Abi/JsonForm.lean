import TxTrace.Proofs.Abi.Reencode
import TxTrace.Proofs.Json.Fields
import TxTrace.Proofs.Text.Checksum
import TxTrace.Proofs.Text.Decimal

/-!
The JSON form of decoded values. Numbers, byte strings, texts and addresses share one kind of JSON value, as do
arrays and tuples, and it is the type that tells them apart: decoded values of one type are known again from
their JSON form (`eq_of_map_toJson_eq`). The members of a tuple that is an object are found by their names, which
must be different for that.
-/

namespace TxTrace.Abi

variable {ty elem : Ty} {v w : Value} {types : List Ty}

/-! ### Names -/

/-- Whether the members of a tuple have different names, if all of them have one. -/
def namesDiffer (members : List (Member Ty)) : Bool :=
  members.any (·.name.isNone) || decide (members.map (·.name)).Nodup

mutual

/-- Whether the members of each tuple in a type have different names, if all of them have one. -/
def Ty.namesDiffer : Ty → Bool
  | .array elem | .fixedArray elem _ => elem.namesDiffer
  | .tuple members => Abi.namesDiffer members && Ty.memberNamesDiffer members
  | _ => true

/-- Whether the same is so in the members of a tuple. -/
def Ty.memberNamesDiffer : List (Member Ty) → Bool
  | [] => true
  | m :: ms => m.val.namesDiffer && memberNamesDiffer ms

end

theorem namesDiffer_of_mem {ms : List (Member Ty)} (h : Ty.memberNamesDiffer ms = true) :
    ∀ m ∈ ms, m.val.namesDiffer = true := by
  induction ms with
  | nil =>
    intro m hm
    cases hm
  | cons m ms ih =>
    rw [Ty.memberNamesDiffer, Bool.and_eq_true] at h
    exact List.forall_mem_cons.2 ⟨h.1, ih h.2⟩

/-! ### JSON forms of the parts of a value -/

namespace Value

theorem toJsonItems_eq_map (items : List Value) : toJsonItems items = items.map toJson := by
  induction items with
  | nil => rfl
  | cons item items ih => rw [toJsonItems, ih, List.map_cons]

theorem toJsonFields_eq_map (fields : List (Member Value)) :
    toJsonFields fields = fields.map fun m => (m.name.getD "", m.val.toJson) := by
  induction fields with
  | nil => rfl
  | cons m ms ih => rw [toJsonFields, ih, List.map_cons]

/-- Whether the JSON form of a tuple is an object, by the names of its members. -/
def isObject (names : List (Option String)) : Bool := !names.isEmpty && names.all (·.isSome)

theorem toJson_tuple (fields : List (Member Value)) :
    (tuple fields).toJson =
      if isObject (fields.map (·.name)) then .object (fields.map fun m => (m.name.getD "", m.val.toJson))
      else .arr (fields.map (·.val.toJson)) := by
  rw [toJson, toJsonFields_eq_map, isObject, List.isEmpty_map, List.all_map, List.map_map]
  rfl

end Value

/-! ### Values by their JSON form -/

/-- A value of a type whose values are not made of values. -/
theorem eq_of_toJson_eq_of_not_isComposite (hty : ty.isComposite = false) (hv : v.IsOf ty) (hw : w.IsOf ty)
    (hlabel : v.IsLabelled ty) (hlabel' : w.IsLabelled ty) (h : v.toJson = w.toJson) : v = w := by
  cases ty with
  | array _ | fixedArray _ _ | tuple _ => cases hty
  | address =>
    cases v with
    | address a =>
      cases w with
      | address b => rw [Address.checksum_injective (Json.str.inj h)]
      | _ => exact hw.elim
    | _ => exact hv.elim
  | bool =>
    cases v with
    | bool x =>
      cases w with
      | bool y => rw [Json.bool.inj h]
      | _ => exact hw.elim
    | _ => exact hv.elim
  | uint width =>
    cases v with
    | uint word bits =>
      cases w with
      | uint word' bits' => rw [BitVec.eq_of_toNat_eq (Text.toString_injective (Json.str.inj h)), hlabel, hlabel']
      | _ => exact hw.elim
    | _ => exact hv.elim
  | int width =>
    cases v with
    | int word bits =>
      cases w with
      | int word' bits' => rw [BitVec.eq_of_toInt_eq (Text.toString_int_injective (Json.str.inj h)), hlabel, hlabel']
      | _ => exact hw.elim
    | _ => exact hv.elim
  | fixedBytes width =>
    cases v with
    | fixedBytes bs =>
      cases w with
      | fixedBytes bs' => rw [Hex.ofBytes_injective (Json.str.inj h)]
      | _ => exact hw.elim
    | _ => exact hv.elim
  | function =>
    cases v with
    | fixedBytes bs =>
      cases w with
      | fixedBytes bs' => rw [Hex.ofBytes_injective (Json.str.inj h)]
      | _ => exact hw.elim
    | _ => exact hv.elim
  | bytes =>
    cases v with
    | bytes bs =>
      cases w with
      | bytes bs' => rw [Hex.ofBytes_injective (Json.str.inj h)]
      | _ => exact hw.elim
    | _ => exact hv.elim
  | string =>
    cases v with
    | string s =>
      cases w with
      | string s' => rw [Json.str.inj h]
      | _ => exact hw.elim
    | _ => exact hv.elim

/-- Items are known from their JSON forms if each of them is. -/
theorem eq_of_map_toJson_eq_of_forall {items items' : List Value}
    (hitems : ∀ item ∈ items, ∀ item' ∈ items', item.toJson = item'.toJson → item = item')
    (h : items.map Value.toJson = items'.map Value.toJson) : items = items' := by
  induction items generalizing items' with
  | nil => exact (List.map_eq_nil_iff.1 h.symm).symm
  | cons item items ih =>
    cases items' with
    | nil => cases h
    | cons item' items' =>
      obtain ⟨hitem, hrest⟩ := List.cons.inj h
      rw [hitems item List.mem_cons_self item' List.mem_cons_self hitem,
        ih (fun a ha b hb => hitems a (List.mem_cons_of_mem _ ha) b (List.mem_cons_of_mem _ hb)) hrest]

/-- Members are known from their names and the JSON forms of their values, if each of these is. -/
theorem eq_of_map_val_toJson_eq {members : List (Member Ty)} {fields fields' : List (Member Value)}
    {P : Ty → Value → Prop}
    (hmembers : ∀ m ∈ members, ∀ {v w : Value}, P m.val v → P m.val w → v.toJson = w.toJson → v = w)
    (hfields : List.Forall₂ (fun m v => P m.val v) members (fields.map (·.val)))
    (hfields' : List.Forall₂ (fun m v => P m.val v) members (fields'.map (·.val)))
    (hnames : fields.map (·.name) = fields'.map (·.name))
    (h : fields.map (·.val.toJson) = fields'.map (·.val.toJson)) : fields = fields' := by
  induction members generalizing fields fields' with
  | nil =>
    rw [List.forall₂_nil_left_iff, List.map_eq_nil_iff] at hfields hfields'
    rw [hfields, hfields']
  | cons m ms ih =>
    obtain ⟨hm, hms⟩ := List.forall_mem_cons.1 hmembers
    cases fields with
    | nil => cases hfields
    | cons f fs =>
      cases fields' with
      | nil => cases hfields'
      | cons f' fs' =>
        rw [List.map_cons, List.forall₂_cons] at hfields hfields'
        obtain ⟨hname, hnames⟩ := List.cons.inj hnames
        obtain ⟨hval, hvals⟩ := List.cons.inj h
        have hfield : f = f' := by
          obtain ⟨name, val⟩ := f
          obtain ⟨name', val'⟩ := f'
          exact congr (congrArg Member.mk hname) (hm hfields.1 hfields'.1 hval)
        rw [hfield, ih hms hfields.2 hfields'.2 hnames hvals]

/-- The names of an object are its keys. -/
theorem nodup_keys_of_isObject {members : List (Member Ty)} (hdiffer : namesDiffer members = true)
    (hobject : Value.isObject (members.map (·.name)) = true) :
    ((members.map (·.name)).map (·.getD "")).Nodup := by
  rw [Value.isObject, Bool.and_eq_true, List.all_eq_true] at hobject
  rw [namesDiffer, Bool.or_eq_true, decide_eq_true_eq] at hdiffer
  have hnodup : (members.map (·.name)).Nodup := by
    refine hdiffer.resolve_left fun hany => ?_
    obtain ⟨m, hm, hnone⟩ := List.any_eq_true.1 hany
    have hsome := hobject.2 m.name (List.mem_map_of_mem hm)
    rw [Option.isNone_iff_eq_none.1 hnone] at hsome
    cases hsome
  refine List.Nodup.map_on ?_ hnodup
  intro name hname name' hname' heq
  obtain ⟨key, rfl⟩ := Option.isSome_iff_exists.1 (hobject.2 name hname)
  obtain ⟨key', rfl⟩ := Option.isSome_iff_exists.1 (hobject.2 name' hname')
  exact congrArg some heq

/-- The JSON form of a tuple has that of each member, in an order that the names of the members say. -/
theorem map_toJson_of_toJson_tuple {members : List (Member Ty)} {fields fields' : List (Member Value)}
    (hdiffer : namesDiffer members = true) (hnames : fields.map (·.name) = members.map (·.name))
    (hnames' : fields'.map (·.name) = members.map (·.name))
    (h : (Value.tuple fields).toJson = (Value.tuple fields').toJson) :
    fields.map (·.val.toJson) = fields'.map (·.val.toJson) := by
  rw [Value.toJson_tuple, Value.toJson_tuple, hnames, hnames'] at h
  have hkeys (fields : List (Member Value)) :
      (fields.map fun m => (m.name.getD "", m.val.toJson)).map (·.1) =
        (fields.map (·.name)).map (·.getD "") := by
    rw [List.map_map, List.map_map]
    rfl
  split at h
  · next hobject =>
    have hentries : (fields.map fun m => (m.name.getD "", m.val.toJson)) =
        fields'.map fun m => (m.name.getD "", m.val.toJson) := by
      refine Json.eq_of_sortFields_eq ?_ ?_ (Json.obj.inj h)
      · rw [hkeys, hnames]
        exact nodup_keys_of_isObject hdiffer hobject
      · rw [hkeys, hkeys, hnames, hnames']
    have hvalues := congrArg (List.map (·.2)) hentries
    rwa [List.map_map, List.map_map] at hvalues
  · exact Json.arr.inj h

/-- A value with the widths and the names of its type is known from its JSON form. -/
theorem eq_of_toJson_eq (hdiffer : ty.namesDiffer = true) (hv : v.Each Value.IsLabelled ty)
    (hw : w.Each Value.IsLabelled ty) (h : v.toJson = w.toJson) : v = w := by
  induction ty using Ty.induct generalizing v w with
  | address | bool | uint width | int width | fixedBytes width | function | bytes | string =>
    exact eq_of_toJson_eq_of_not_isComposite rfl hv.isOf hw.isOf hv.holds hw.holds h
  | array elem ih =>
    cases v with
    | array items =>
      cases w with
      | array items' =>
        have hitems := (Value.each_array_iff.1 hv).2
        have hitems' := (Value.each_array_iff.1 hw).2
        rw [Value.toJson, Value.toJson, Value.toJsonItems_eq_map, Value.toJsonItems_eq_map] at h
        rw [eq_of_map_toJson_eq_of_forall (fun item hitem item' hitem' =>
          ih hdiffer (hitems item hitem) (hitems' item' hitem')) (Json.arr.inj h)]
      | _ => exact hw.isOf.elim
    | _ => exact hv.isOf.elim
  | fixedArray elem size ih =>
    cases v with
    | fixedArray items =>
      cases w with
      | fixedArray items' =>
        have hitems := (Value.each_fixedArray_iff.1 hv).2.2
        have hitems' := (Value.each_fixedArray_iff.1 hw).2.2
        rw [Value.toJson, Value.toJson, Value.toJsonItems_eq_map, Value.toJsonItems_eq_map] at h
        rw [eq_of_map_toJson_eq_of_forall (fun item hitem item' hitem' =>
          ih hdiffer (hitems item hitem) (hitems' item' hitem')) (Json.arr.inj h)]
      | _ => exact hw.isOf.elim
    | _ => exact hv.isOf.elim
  | tuple members ih =>
    cases v with
    | tuple fields =>
      cases w with
      | tuple fields' =>
        obtain ⟨hnames, hfields⟩ := Value.each_tuple_iff.1 hv
        obtain ⟨hnames', hfields'⟩ := Value.each_tuple_iff.1 hw
        rw [Ty.namesDiffer, Bool.and_eq_true] at hdiffer
        have hmembers := namesDiffer_of_mem hdiffer.2
        have hvalues := map_toJson_of_toJson_tuple hdiffer.1 hnames hnames' h
        rw [eq_of_map_val_toJson_eq (fun m hm _ _ hv hw => ih m hm (hmembers m hm) hv hw) hfields hfields'
          (hnames.trans hnames'.symm) hvalues]
      | _ => exact hw.isOf.elim
    | _ => exact hv.isOf.elim

/-- Values that were decoded as values of the same types are known from their JSON forms, if the members of
    each tuple that has a name for all of them have different names. -/
theorem eq_of_map_toJson_eq {data data' : Bytes} {values values' : List Value}
    (hdiffer : ∀ ty ∈ types, ty.namesDiffer = true) (h : decode types data = .ok values)
    (h' : decode types data' = .ok values') (hjson : values.map Value.toJson = values'.map Value.toJson) :
    values = values' := by
  have hvalues := (each_of_decode isFull_and_isLabelled_of_decodeValue h).imp fun ty v hv => hv.imp And.right
  have hvalues' := (each_of_decode isFull_and_isLabelled_of_decodeValue h').imp fun ty v hv => hv.imp And.right
  clear h h'
  induction types generalizing values values' with
  | nil =>
    cases hvalues
    cases hvalues'
    rfl
  | cons ty types ih =>
    obtain ⟨hty, htypes⟩ := List.forall_mem_cons.1 hdiffer
    cases hvalues with
    | cons hv hvs =>
      cases hvalues' with
      | cons hw hws =>
        obtain ⟨hhead, htail⟩ := List.cons.inj hjson
        rw [eq_of_toJson_eq hty hv hw hhead, ih htypes htail hvs hws]

/-- A pair of a boolean and texts, which is an object by its names. -/
def labelledPair : List Ty := [.tuple [⟨some "flag", .bool⟩, ⟨some "entries", .array .string⟩]]

/-- A pair of true and one text. The boolean and the text are the bytes that are given. -/
def labelledPairBytes (flag : Nat) (text : UInt8) : Bytes :=
  sizeWord 32 ++ sizeWord flag ++ sizeWord 64 ++ sizeWord 1 ++ sizeWord 32 ++ sizeWord 1 ++ [text]

set_option maxRecDepth 4000 in
/-- Different bytes may stand for one boolean and for one text. -/
theorem eq_of_map_toJson_eq_labelledPair : ∃ values,
    decode labelledPair (labelledPairBytes 1 254) = .ok values ∧
      decode labelledPair (labelledPairBytes 2 255) = .ok values := by
  have hdiffer : ∀ ty ∈ labelledPair, ty.namesDiffer = true := by decide
  have hdecode : decode labelledPair (labelledPairBytes 1 254) =
      .ok [.tuple [⟨some "flag", .bool true⟩, ⟨some "entries", .array [.string "\ufffd"]⟩]] := rfl
  have hdecode' : decode labelledPair (labelledPairBytes 2 255) =
      .ok [.tuple [⟨some "flag", .bool true⟩, ⟨some "entries", .array [.string "\ufffd"]⟩]] := rfl
  have heq := eq_of_map_toJson_eq hdiffer hdecode hdecode' rfl
  exact ⟨_, hdecode, heq ▸ hdecode'⟩

end TxTrace.Abi

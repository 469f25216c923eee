import TxTrace.Abi.Ty.Parser
import TxTrace.Proofs.Abi.RoundTrip

/-!
Arrays of elements that take no bytes. Their length is all that data has of them, and it is held against
the words behind it as if each element took one. So what was encoded is decoded, unless it is refused for
such an array (`decode_encode_array`).
-/

namespace TxTrace.Abi

open Bytes (StandsAt)

variable {data b : Bytes} {pos : Nat} {ty elem : Ty} {v : Value} {items : List Value}

namespace Value

/-- The second value, of the second type, is a node of the first. -/
inductive IsNode : Ty → Value → Ty → Value → Prop
  | self (ty : Ty) (v : Value) : IsNode ty v ty v
  | array {elem ty : Ty} {items : List Value} {item v : Value} (hitem : item ∈ items)
      (h : IsNode elem item ty v) : IsNode (.array elem) (.array items) ty v
  | fixedArray {elem ty : Ty} {size : UInt64} {items : List Value} {item v : Value}
      (hitem : item ∈ items) (h : IsNode elem item ty v) :
      IsNode (.fixedArray elem size) (.fixedArray items) ty v
  | tuple {members : List (Member Ty)} {fields : List (Member Value)} {m : Member Ty}
      {f : Member Value} {ty : Ty} {v : Value} (hfield : (m, f) ∈ members.zip fields)
      (h : IsNode m.val f.val ty v) : IsNode (.tuple members) (.tuple fields) ty v

theorem each_isNode (hv : Each (fun _ _ => True) ty v) : Each (IsNode ty v) ty v := by
  refine hv.induction ?plain ?array ?fixedArray ?tuple
  case plain =>
    intro ty v hty hform _
    exact (each_iff_of_not_isComposite hty).2 ⟨hform, .self _ _⟩
  case array =>
    intro elem items _ hitems
    exact each_array_iff.2 ⟨.self _ _, fun item hitem => (hitems item hitem).imp (.array hitem)⟩
  case fixedArray =>
    intro elem size items hlen _ hitems
    exact each_fixedArray_iff.2
      ⟨hlen, .self _ _, fun item hitem => (hitems item hitem).imp (.fixedArray hitem)⟩
  case tuple =>
    intro members fields _ hfields
    refine each_tuple_iff.2 ⟨.self _ _, ?_⟩
    rw [List.forall₂_map_right_iff] at hfields ⊢
    rw [List.forall₂_iff_zip] at hfields ⊢
    exact ⟨hfields.1, fun hmem => (hfields.2 hmem).imp (.tuple hmem)⟩

end Value

theorem decodeValue_array_eq_error {count : Nat} (hcount : readSize data pos = .ok count)
    (hroom : (data.length - (pos + 32)) / max elem.headSize 32 < count) :
    decodeValue (.array elem) data pos = .error (.arrayTooLong count) := by
  rw [decodeValue, hcount, ok_bind]
  dsimp only
  rw [if_pos hroom]
  rfl

/-- Items that take no bytes leave nothing but their number. -/
theorem layout_eq_nil {ps : List Piece} (hsize : elem.headSize = 0)
    (hps : encodeMembers (equalMembers elem items.length) items = .ok ps)
    (hle : (layout (Ty.headSizes (equalMembers elem items.length)) ps).length ≤ max64) :
    layout (Ty.headSizes (equalMembers elem items.length)) ps = [] := by
  have hstatic : elem.isDynamic = false := by
    rw [← Bool.not_eq_true]
    intro hdynamic
    rw [Ty.headSize_of_isDynamic hdynamic] at hsize
    cases hsize
  have hpieces := static_of_encodeMembers
    (fun m hm => by rw [List.eq_of_mem_replicate hm]; exact hstatic) hps
  rw [length_layout_of_static hpieces] at hle
  have hsum := sum_headSize (fun m _ => length_of_encodeValue m.val) hps (by simp [equalMembers]) hle
  rw [headSizes_equalMembers, hsize, Nat.mul_zero] at hsum
  rw [← List.length_eq_zero_iff, length_layout_of_static hpieces, hsum]

/-- The data of an array alone is its offset, its length and its items. -/
theorem eq_of_encode_array (h : encode [.array elem] [.array items] = .ok b) :
    ∃ ps, encodeMembers (equalMembers elem items.length) items = .ok ps ∧
      b = sizeWord 32 ++ (sizeWord items.length ++
        layout (Ty.headSizes (equalMembers elem items.length)) ps) := by
  rw [encode] at h
  simp only [List.length_cons, List.length_nil, if_true] at h
  obtain ⟨pieces, hpieces, h⟩ := bind_eq_ok_iff.1 h
  obtain ⟨content, rest, hcontent, hrest, rfl⟩ := encodeMembers_cons hpieces
  simp only [List.map_nil, encodeMembers, pure, Except.pure, Except.ok.injEq] at hrest h
  obtain ⟨_, ps, heq, hps, hlayout⟩ := encodeValue_array hcontent
  obtain rfl := Value.array.inj heq
  refine ⟨ps, hps, ?_⟩
  rw [← h, ← hrest, layout, layoutFrom_of_isDynamic rfl, ← hlayout]
  simp [layoutFrom, Member.unnamed, Ty.headSizes, Ty.headSize, max64]

/-- An array alone of items that take no bytes is refused. -/
theorem decode_eq_error_of_encode_array (hmemory : b.length ≤ max64) (hitems : items.length ≤ max64)
    (hsize : elem.headSize = 0) (hne : items ≠ [])
    (h : encode [.array elem] [.array items] = .ok b) :
    decode [.array elem] b = .error (.arrayTooLong items.length) := by
  obtain ⟨ps, hps, hb⟩ := eq_of_encode_array h
  have hle : (layout (Ty.headSizes (equalMembers elem items.length)) ps).length ≤ max64 := by
    rw [hb, List.length_append, List.length_append] at hmemory
    omega
  rw [layout_eq_nil hsize hps hle, List.append_nil] at hb
  have hstands : StandsAt b 0 (sizeWord 32 ++ sizeWord items.length) := by
    rw [← hb]
    exact Bytes.standsAt_zero b
  have hoffset := readSize_of_standsAt (by decide) hstands.left
  have hright := hstands.right
  rw [length_sizeWord, Nat.zero_add] at hright
  have hcount := readSize_of_standsAt hitems hright
  have hpos : 0 < items.length := List.length_pos_iff.2 hne
  have hroom : (b.length - (32 + 32)) / max elem.headSize 32 < items.length := by
    rw [hb]
    simpa using hpos
  have hmember : readMember (decodeValue (.array elem) b) (Ty.array elem).isDynamic b 0 0 =
      .error (.arrayTooLong items.length) := by
    rw [readMember, Ty.isDynamic, if_pos rfl, hoffset, ok_bind, if_pos (by decide)]
    exact decodeValue_array_eq_error hcount hroom
  rw [decode, List.map_cons, decodeMembers]
  simp only [Member.unnamed, hmember]
  rfl

/-- An array is decoded as it was encoded, or refused for an array in it of elements that take no bytes.
    It is refused if its own items take none. Lengths in memory have 64 bits. -/
theorem decode_encode_array (hmemory : b.length ≤ max64)
    (hlengths : Value.Each (fun _ v => v.elements.length ≤ max64) (.array elem) (.array items))
    (h : encode [.array elem] [.array items] = .ok b) :
    (decode [.array elem] b = .ok [.array (items.map (Value.retype elem))] ∨
      ∃ ty v, Value.IsNode (.array elem) (.array items) ty v ∧ v.IsUncounted ty ∧
        decode [.array elem] b = .error (.arrayTooLong v.elements.length)) ∧
      (elem.headSize = 0 → items ≠ [] →
        decode [.array elem] b = .error (.arrayTooLong items.length)) := by
  refine ⟨?_, fun hsize hne => decode_eq_error_of_encode_array hmemory hlengths.holds hsize hne h⟩
  have hnodes := Value.each_isNode (hlengths.imp fun _ => trivial)
  have hread : ReadsBack
      (fun e => ∃ ty v, Value.IsNode (.array elem) (.array items) ty v ∧ v.IsUncounted ty ∧
        e = .arrayTooLong v.elements.length) (.array elem) (.array items) :=
    readsBack_of_each ((hnodes.and hlengths).imp fun ⟨hnode, hle⟩ huncounted =>
      ⟨hle, _, _, hnode, huncounted, rfl⟩)
  rcases decode_of_readsBack (.cons hread .nil) hmemory h with
    hok | ⟨e, ⟨ty, v, hnode, hv, rfl⟩, herror⟩
  · exact .inl hok
  · exact .inr ⟨ty, v, hnode, hv, herror⟩

/-- The data of an array of one empty tuple. -/
def unitArrayBytes : Bytes := sizeWord 32 ++ sizeWord 1

/-- An array of three strings. -/
def textItems : List Value := [.string "ab", .string "", .string "c"]

def textArrayBytes : Bytes :=
  sizeWord 32 ++ (sizeWord 3 ++ (sizeWord 96 ++ sizeWord 160 ++ sizeWord 192 ++
    (lengthPrefixed [97, 98] ++ lengthPrefixed [] ++ lengthPrefixed [99])))

theorem decode_encode_array_units :
    (encode [.array (.tuple [])] [.array [.tuple []]] = .ok unitArrayBytes ∧
      decode [.array (.tuple [])] unitArrayBytes = .error (.arrayTooLong 1)) ∧
    encode [.array .string] [.array textItems] = .ok textArrayBytes ∧
      decode [.array .string] textArrayBytes = .ok [.array textItems] := by
  have hunits : encode [.array (.tuple [])] [.array [.tuple []]] = .ok unitArrayBytes := rfl
  have hunitLengths : Value.Each (fun _ v => v.elements.length ≤ max64) (.array (.tuple []))
      (.array [.tuple []]) := by
    simp [Value.each_array_iff, Value.each_tuple_iff, Value.elements, max64]
  have htexts : encode [.array .string] [.array textItems] = .ok textArrayBytes :=
    eq_ok_of_toOption (by decide +kernel)
  have htext (s : String) : Value.Each (fun _ v => v.elements.length ≤ max64) .string (.string s) :=
    (Value.each_iff_of_not_isComposite rfl).2 ⟨trivial, Nat.zero_le _⟩
  have htextLengths : Value.Each (fun _ v => v.elements.length ≤ max64) (.array .string)
      (.array textItems) :=
    Value.each_array_iff.2 ⟨by decide, by simp [textItems, htext]⟩
  refine ⟨⟨hunits, (decode_encode_array (by decide) hunitLengths hunits).2 rfl (by simp)⟩, htexts, ?_⟩
  rcases (decode_encode_array (by decide +kernel) htextLengths htexts).1 with
    hok | ⟨_, _, hnode, ⟨elem, rfl, hsize, -⟩, -⟩
  · exact hok
  · -- strings take bytes, and there is no array in them
    cases hnode with
    | self => cases hsize
    | array hitem h => cases h

/-- What was encoded is not always decoded. -/
theorem not_forall_decode_encode_array :
    ¬ ∀ (text : String) (elem : Ty) (items : List Value) (b : Bytes), Ty.parse text = .ok elem →
      encode [.array elem] [.array items] = .ok b →
      ∃ values, decode [.array elem] b = .ok values := by
  intro h
  have hparse : Ty.parse "()" = .ok (.tuple []) := by cbv
  obtain ⟨values, hvalues⟩ := h "()" (.tuple []) [.tuple []] unitArrayBytes hparse rfl
  have herror : decode [.array (.tuple [])] unitArrayBytes = .error (.arrayTooLong 1) := rfl
  rw [herror] at hvalues
  cases hvalues

end TxTrace.Abi

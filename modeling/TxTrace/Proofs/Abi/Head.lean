import TxTrace.Proofs.Abi.RoundTrip

/-!
What stands in the head of an encoding. Encodings are whole words, and a static one has the size of its
head entry. So the members of a sequence stand one after another where the sizes of their types say, the
dynamic ones behind the offsets in the head (`Placed`, `placed_of_encode`).
-/

namespace TxTrace.Abi

open Bytes (StandsAt)

variable {ty : Ty} {types : List Ty} {v : Value} {vs values : List Value} {b : Bytes}
  {ms : List (Member Ty)} {ps : List Piece}

/-! ### Whole words -/

theorem dvd_length_lengthPrefixed (bs : Bytes) : 32 ∣ (lengthPrefixed bs).length := by
  rw [lengthPrefixed, List.length_append, length_sizeWord]
  exact Nat.dvd_add (Nat.dvd_refl 32) bs.dvd_length_padRight

theorem dvd_length_layoutFrom (hps : ∀ p ∈ ps, 32 ∣ p.content.length) (offset : Nat) :
    32 ∣ (layoutFrom offset ps).1.length ∧ 32 ∣ (layoutFrom offset ps).2.length := by
  induction ps generalizing offset with
  | nil => exact ⟨Nat.dvd_zero 32, Nat.dvd_zero 32⟩
  | cons p ps ih =>
    obtain ⟨hp, hps⟩ := List.forall_mem_cons.1 hps
    cases hdynamic : p.isDynamic with
    | true =>
      obtain ⟨hhead, htail⟩ := ih hps (offset + p.content.length)
      rw [layoutFrom_of_isDynamic hdynamic, List.length_append, List.length_append, length_sizeWord]
      exact ⟨Nat.dvd_add (Nat.dvd_refl 32) hhead, Nat.dvd_add hp htail⟩
    | false =>
      obtain ⟨hhead, htail⟩ := ih hps offset
      rw [layoutFrom_of_not_isDynamic hdynamic, List.length_append]
      exact ⟨Nat.dvd_add hp hhead, htail⟩

theorem dvd_length_layout (hps : ∀ p ∈ ps, 32 ∣ p.content.length) (size : Nat) :
    32 ∣ (layout size ps).length := by
  rw [layout, List.length_append]
  exact Nat.dvd_add (dvd_length_layoutFrom hps _).1 (dvd_length_layoutFrom hps _).2

/-- Values of the type take whole words. -/
def TakesWords (ty : Ty) : Prop := ∀ v b, encodeValue ty v = .ok b → 32 ∣ b.length

theorem dvd_length_content (hms : ∀ m ∈ ms, TakesWords m.val) (h : encodeMembers ms vs = .ok ps) :
    ∀ p ∈ ps, 32 ∣ p.content.length := by
  induction ms generalizing vs ps with
  | nil =>
    obtain rfl := Except.ok.inj h
    exact List.forall_mem_nil _
  | cons m ms ih =>
    obtain ⟨hm, hms⟩ := List.forall_mem_cons.1 hms
    cases vs with
    | nil =>
      obtain rfl := Except.ok.inj h
      exact List.forall_mem_nil _
    | cons v vs =>
      obtain ⟨content, rest, hcontent, hrest, rfl⟩ := encodeMembers_cons h
      exact List.forall_mem_cons.2 ⟨hm v content hcontent, ih hms hrest⟩

theorem takesWords (ty : Ty) : TakesWords ty := by
  induction ty using Ty.induct with
  | address | bool | uint w | int w | fixedBytes w | function =>
    intro v b h
    exact ⟨1, length_of_isElementary rfl h⟩
  | bytes =>
    intro v b h
    obtain ⟨bs, -, hb⟩ := encodeValue_bytes h
    rw [hb]
    exact dvd_length_lengthPrefixed bs
  | string =>
    intro v b h
    obtain ⟨s, -, hb⟩ := encodeValue_string h
    rw [hb]
    exact dvd_length_lengthPrefixed _
  | array elem ih =>
    intro v b h
    obtain ⟨items, ps, -, hps, hb⟩ := encodeValue_array h
    have hcontents := dvd_length_content (forall_equalMembers ih items.length) hps
    rw [hb, List.length_append, length_sizeWord]
    exact Nat.dvd_add (Nat.dvd_refl 32) (dvd_length_layout hcontents _)
  | fixedArray elem size ih =>
    intro v b h
    obtain ⟨items, ps, -, -, hps, rfl⟩ := encodeValue_fixedArray h
    exact dvd_length_layout (dvd_length_content (forall_equalMembers ih items.length) hps) _
  | tuple members ih =>
    intro v b h
    obtain ⟨fields, ps, -, -, hps, rfl⟩ := encodeValue_tuple h
    exact dvd_length_layout (dvd_length_content ih hps) _

/-! ### Places -/

theorem headSizes_eq_sum (ms : List (Member Ty)) :
    Ty.headSizes ms = ((ms.map (·.val)).map Ty.headSize).sum := by
  induction ms with
  | nil => rfl
  | cons m ms ih => rw [Ty.headSizes, ih, List.map_cons, List.map_cons, List.sum_cons]

/-- The members of a sequence, of some types and values, stand in its encoding `b`: in the head one after
    another from `cursor` up to `stop`, and behind it the dynamic ones one after another from `offset` up to
    the end. Their offsets stand in the head in their place. -/
inductive Placed (b : Bytes) (stop : Nat) : (cursor offset : Nat) → List Ty → List Value → Prop
  | nil : Placed b stop stop b.length [] []
  | static {cursor offset : Nat} {ty : Ty} {types : List Ty} {v : Value} {values : List Value}
      {content : Bytes} (hstatic : ty.isDynamic = false) (hcontent : encodeValue ty v = .ok content)
      (hsize : content.length = ty.headSize) (hentry : StandsAt b cursor content)
      (hrest : Placed b stop (cursor + ty.headSize) offset types values) :
      Placed b stop cursor offset (ty :: types) (v :: values)
  | dynamic {cursor offset : Nat} {ty : Ty} {types : List Ty} {v : Value} {values : List Value}
      {content : Bytes} (hdynamic : ty.isDynamic = true) (hcontent : encodeValue ty v = .ok content)
      (hoffset : offset ≤ max64) (hentry : StandsAt b cursor (sizeWord offset))
      (htail : StandsAt b offset content)
      (hrest : Placed b stop (cursor + ty.headSize) (offset + content.length) types values) :
      Placed b stop cursor offset (ty :: types) (v :: values)

theorem placed_of_encodeMembers {cursor offset : Nat} (h : encodeMembers ms vs = .ok ps)
    (hlen : ms.length = vs.length) (hmemory : b.length ≤ max64)
    (hhead : StandsAt b cursor (layoutFrom offset ps).1)
    (htail : StandsAt b offset (layoutFrom offset ps).2)
    (hend : offset + (layoutFrom offset ps).2.length = b.length) :
    Placed b (cursor + (layoutFrom offset ps).1.length) cursor offset (ms.map (·.val)) vs := by
  induction ms generalizing vs ps cursor offset with
  | nil =>
    obtain rfl := List.length_eq_zero_iff.1 hlen.symm
    obtain rfl := Except.ok.inj h
    obtain rfl : offset = b.length := hend
    exact .nil
  | cons m ms ih =>
    obtain ⟨v, vs, rfl⟩ := List.exists_cons_of_length_eq_add_one hlen.symm
    obtain ⟨content, rest, hcontent, hrest, rfl⟩ := encodeMembers_cons h
    have hlen' : ms.length = vs.length := by simpa using hlen
    rw [List.map_cons]
    cases hdynamic : m.val.isDynamic with
    | true =>
      rw [hdynamic, layoutFrom_of_isDynamic rfl] at hhead htail hend
      rw [layoutFrom_of_isDynamic rfl, List.length_append, length_sizeWord, ← Nat.add_assoc]
      rw [List.length_append, ← Nat.add_assoc] at hend
      have hnext := hhead.right
      rw [length_sizeWord] at hnext
      have hsize := Ty.headSize_of_isDynamic hdynamic
      rw [← hsize] at hnext ⊢
      have hle := htail.le_length
      exact .dynamic hdynamic hcontent (by omega) hhead.left htail.left
        (ih hrest hlen' hnext htail.right hend)
    | false =>
      rw [hdynamic, layoutFrom_of_not_isDynamic rfl] at hhead htail hend
      rw [layoutFrom_of_not_isDynamic rfl, List.length_append, ← Nat.add_assoc]
      have hle : cursor + content.length ≤ b.length := hhead.left.le_length
      have hsize := length_of_encodeValue m.val v content hcontent hdynamic (by omega)
      have hnext := hhead.right
      rw [hsize] at hnext ⊢
      exact .static hdynamic hcontent hsize hhead.left (ih hrest hlen' hnext htail hend)

/-- A sequence is placed in its layout: the head takes as many bytes as the types say, and the tail the
    rest. -/
theorem placed_layout (h : encodeMembers ms vs = .ok ps) (hlen : ms.length = vs.length)
    (hmemory : (layout (Ty.headSizes ms) ps).length ≤ max64) :
    Placed (layout (Ty.headSizes ms) ps) (Ty.headSizes ms) 0 (Ty.headSizes ms) (ms.map (·.val)) vs := by
  have hle := sum_le_length_layout (Ty.headSizes ms) ps
  have hsum := sum_headSize (fun m _ => length_of_encodeValue m.val) h hlen (by omega)
  have hmin : min (Ty.headSizes ms) max64 = Ty.headSizes ms := by omega
  have hlaid := laid_of_standsAt (hmin.trans hsum.symm)
    (Bytes.standsAt_zero (layout (Ty.headSizes ms) ps))
  rw [hmin] at hlaid
  have hhead : (layoutFrom (Ty.headSizes ms) ps).1.length = Ty.headSizes ms :=
    (length_head_layoutFrom _ ps).trans hsum
  have htail := hlaid.tail
  rw [Nat.zero_add] at htail
  have hend : Ty.headSizes ms + (layoutFrom (Ty.headSizes ms) ps).2.length =
      (layout (Ty.headSizes ms) ps).length := by
    rw [layout, hmin, List.length_append, hhead]
  have hplaced := placed_of_encodeMembers h hlen hmemory hlaid.head htail hend
  rwa [hhead, Nat.zero_add] at hplaced

/-! ### Sequences in values -/

/-- The sequence of which a composite value consists, with what stands before it: the length of a dynamic
    array. -/
def Value.sequence? : (ty : Ty) → (v : Value) → Option (Bytes × List Ty × List Value)
  | .array elem, .array items =>
    some (sizeWord items.length, List.replicate items.length elem, items)
  | .fixedArray elem _, .fixedArray items => some ([], List.replicate items.length elem, items)
  | .tuple members, .tuple fields => some ([], members.map (·.val), fields.map (·.val))
  | _, _ => none

theorem map_val_unnamed (types : List Ty) : (types.map Member.unnamed).map (·.val) = types := by
  rw [List.map_map]
  exact List.map_id types

theorem map_val_equalMembers (elem : Ty) (count : Nat) :
    (equalMembers elem count).map (·.val) = List.replicate count elem := List.map_replicate

theorem encodeMembers_unnamed (ms : List (Member Ty)) (vs : List Value) :
    encodeMembers ((ms.map (·.val)).map Member.unnamed) vs = encodeMembers ms vs := by
  induction ms generalizing vs with
  | nil => rfl
  | cons m ms ih =>
    cases vs with
    | nil => rfl
    | cons v vs =>
      rw [List.map_cons, List.map_cons, encodeMembers, encodeMembers, ih]
      rfl

/-- The names of members leave no trace. -/
theorem encode_of_encodeMembers (h : encodeMembers ms vs = .ok ps) (hlen : ms.length = vs.length) :
    encode (ms.map (·.val)) vs = .ok (layout (Ty.headSizes ms) ps) := by
  have hsizes : Ty.headSizes ((ms.map (·.val)).map Member.unnamed) = Ty.headSizes ms := by
    rw [headSizes_eq_sum, map_val_unnamed, ← headSizes_eq_sum]
  rw [encode, if_pos (by simpa using hlen)]
  dsimp only
  rw [encodeMembers_unnamed, h, hsizes]
  rfl

/-- A composite value is encoded as its sequence is. -/
theorem encode_sequence {front : Bytes} (h : encodeValue ty v = .ok b)
    (hsequence : v.sequence? ty = some (front, types, values)) :
    ∃ body, encode types values = .ok body ∧ b = front ++ body := by
  cases ty with
  | array elem =>
    obtain ⟨items, ps, rfl, hps, hb⟩ := encodeValue_array h
    obtain ⟨rfl, rfl, rfl⟩ : sizeWord items.length = front ∧
        List.replicate items.length elem = types ∧ items = values := by simpa [Value.sequence?] using hsequence
    rw [← map_val_equalMembers]
    exact ⟨_, encode_of_encodeMembers hps (by simp [equalMembers]), hb⟩
  | fixedArray elem size =>
    obtain ⟨items, ps, rfl, -, hps, hb⟩ := encodeValue_fixedArray h
    obtain ⟨rfl, rfl, rfl⟩ : [] = front ∧
        List.replicate items.length elem = types ∧ items = values := by simpa [Value.sequence?] using hsequence
    rw [← map_val_equalMembers]
    exact ⟨_, encode_of_encodeMembers hps (by simp [equalMembers]), hb⟩
  | tuple members =>
    obtain ⟨fields, ps, rfl, hlen, hps, hb⟩ := encodeValue_tuple h
    obtain ⟨rfl, rfl, rfl⟩ : [] = front ∧
        members.map (·.val) = types ∧ fields.map (·.val) = values := by simpa [Value.sequence?] using hsequence
    exact ⟨_, encode_of_encodeMembers hps (by simpa using hlen), hb⟩
  | _ => simp [Value.sequence?] at hsequence

/-- An encoding is a whole number of words, as many as its type says if it is static. So in a sequence the
    head takes as many bytes as the types say, and the offset of each dynamic member is where its own
    encoding begins. The sequences inside values are no different. -/
theorem placed_of_encode :
    (∀ {ty v b}, encodeValue ty v = .ok b →
      32 ∣ b.length ∧ (ty.isDynamic = false → b.length ≤ max64 → b.length = ty.headSize) ∧
      ∀ {front types values}, v.sequence? ty = some (front, types, values) →
        ∃ body, encode types values = .ok body ∧ b = front ++ body) ∧
    ∀ {types values b}, encode types values = .ok b → b.length ≤ max64 →
      Placed b (types.map Ty.headSize).sum 0 (types.map Ty.headSize).sum types values := by
  constructor
  · intro ty v b h
    exact ⟨takesWords ty v b h, length_of_encodeValue ty v b h, fun hsequence => encode_sequence h hsequence⟩
  · intro types values b h hmemory
    have hlen := length_eq_of_encode h
    rw [encode, if_pos hlen] at h
    obtain ⟨ps, hps, h⟩ := bind_eq_ok_iff.1 h
    obtain rfl := Except.ok.inj h
    have hplaced := placed_layout hps (by simpa using hlen) hmemory
    rw [headSizes_eq_sum, map_val_unnamed] at hplaced ⊢
    exact hplaced

/-- Two truth values. -/
def pair : Ty := .tuple [⟨none, .bool⟩, ⟨none, .bool⟩]

def pairValues : List Value :=
  [.tuple [⟨none, .bool true⟩, ⟨none, .bool false⟩], .tuple [⟨none, .bool true⟩, ⟨none, .bool true⟩]]

def pairBytes : Bytes := sizeWord 1 ++ sizeWord 0 ++ (sizeWord 1 ++ sizeWord 1)

theorem placed_of_encode_nested :
    (encodeValue (.fixedArray pair 2) (.fixedArray pairValues) = .ok pairBytes ∧
      32 ∣ pairBytes.length ∧ pairBytes.length = (Ty.fixedArray pair 2).headSize ∧
      ∃ body, encode [pair, pair] pairValues = .ok body ∧ pairBytes = [] ++ body) ∧
    encode nestedTypes nestedValues = .ok nestedBytes ∧
      Placed nestedBytes 64 0 64 nestedTypes nestedValues := by
  have hpairs : encodeValue (.fixedArray pair 2) (.fixedArray pairValues) = .ok pairBytes :=
    eq_ok_of_toOption (by decide +kernel)
  have hencode : encode nestedTypes nestedValues = .ok nestedBytes :=
    eq_ok_of_toOption (by decide +kernel)
  obtain ⟨hwords, hsize, hsequence⟩ := placed_of_encode.1 hpairs
  exact ⟨⟨hpairs, hwords, hsize rfl (by decide +kernel), hsequence rfl⟩, hencode,
    placed_of_encode.2 hencode (by decide +kernel)⟩

end TxTrace.Abi

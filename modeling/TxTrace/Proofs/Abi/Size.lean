import TxTrace.Proofs.Abi.Layout

/-!
The sizes of encodings. An array is laid out and read like a tuple of equal members, so what holds of
the members of a sequence holds of both, and a static value takes as many bytes as its type says
(`length_of_encodeValue`).
-/

namespace TxTrace.Abi

namespace Ty

/-- Induction over types, the members of a tuple being any of those in its list. -/
@[elab_as_elim]
theorem induct {motive : Ty → Prop} (address : motive .address) (bool : motive .bool)
    (uint : ∀ w, motive (.uint w)) (int : ∀ w, motive (.int w))
    (fixedBytes : ∀ w, motive (.fixedBytes w)) (function : motive .function)
    (bytes : motive .bytes) (string : motive .string)
    (array : ∀ elem, motive elem → motive (.array elem))
    (fixedArray : ∀ elem size, motive elem → motive (.fixedArray elem size))
    (tuple : ∀ members, (∀ m ∈ members, motive m.val) → motive (.tuple members)) (ty : Ty) :
    motive ty :=
  @Ty.rec motive (fun members => ∀ m ∈ members, motive m.val) (fun m => motive m.val)
    address bool uint int fixedBytes function bytes string array fixedArray tuple
    (fun _ h => absurd h List.not_mem_nil)
    (fun _ _ hm hms _ h => (List.mem_cons.1 h).elim (fun heq => heq ▸ hm) (hms _))
    (fun _ _ h => h) ty

theorem anyDynamic_eq_false {members : List (Member Ty)} (h : anyDynamic members = false) :
    ∀ m ∈ members, m.val.isDynamic = false := by
  induction members with
  | nil =>
    intro m hm
    cases hm
  | cons m ms ih =>
    simp only [anyDynamic, Bool.or_eq_false_iff] at h
    intro m' hm'
    rcases List.mem_cons.1 hm' with rfl | hms
    · exact h.1
    · exact ih h.2 m' hms

/-- A dynamic value leaves an offset in the head. -/
theorem headSize_of_isDynamic {ty : Ty} (h : ty.isDynamic = true) : ty.headSize = 32 := by
  cases ty with
  | fixedArray elem size =>
    simp only [isDynamic] at h
    rw [headSize, if_pos h]
  | tuple members =>
    simp only [isDynamic] at h
    rw [headSize, if_pos h]
  | _ => rfl

/-- A value takes whole words, if any bytes at all. -/
theorem headSize_eq_zero_or_le (ty : Ty) : ty.headSize = 0 ∨ 32 ≤ ty.headSize := by
  have hmax : 32 ≤ max64 := by decide
  induction ty using induct with
  | fixedArray elem size ih =>
    rw [headSize]
    split
    · exact .inr (Nat.le_refl 32)
    · rcases ih with hzero | hle
      · exact .inl (by simp [hzero])
      · rcases Nat.eq_zero_or_pos size.toNat with hsize | hsize
        · exact .inl (by simp [hsize])
        · have hmul : elem.headSize * 1 ≤ elem.headSize * size.toNat := Nat.mul_le_mul_left _ hsize
          exact .inr (by omega)
  | tuple members ih =>
    have hsizes : headSizes members = 0 ∨ 32 ≤ headSizes members := by
      induction members with
      | nil => exact .inl rfl
      | cons m ms ihms =>
        have hm := ih m List.mem_cons_self
        have hms := ihms fun m' hm' => ih m' (List.mem_cons_of_mem m hm')
        rw [headSizes]
        omega
    rw [headSize]
    split
    · exact .inr (Nat.le_refl 32)
    · omega
  | _ => exact .inr (Nat.le_refl 32)

end Ty

/-! ### Members -/

variable {m : Member Ty} {ms : List (Member Ty)}

theorem encodeMembers_cons {v : Value} {vs : List Value} {ps : List Piece}
    (h : encodeMembers (m :: ms) (v :: vs) = .ok ps) :
    ∃ content rest, encodeValue m.val v = .ok content ∧ encodeMembers ms vs = .ok rest ∧
      ps = ⟨m.val.isDynamic, content⟩ :: rest := by
  rw [encodeMembers] at h
  obtain ⟨content, hcontent, h⟩ := bind_eq_ok_iff.1 h
  obtain ⟨rest, hrest, h⟩ := bind_eq_ok_iff.1 h
  exact ⟨content, rest, hcontent, hrest, (Except.ok.inj h).symm⟩

theorem equalMembers_succ (elem : Ty) (count : Nat) :
    equalMembers elem (count + 1) = ⟨none, elem⟩ :: equalMembers elem count := rfl

theorem forall_equalMembers {P : Ty → Prop} {elem : Ty} (helem : P elem) (count : Nat) :
    ∀ m ∈ equalMembers elem count, P m.val := by
  intro m hm
  rw [List.eq_of_mem_replicate hm]
  exact helem

theorem headSizes_equalMembers (elem : Ty) (count : Nat) :
    Ty.headSizes (equalMembers elem count) = count * elem.headSize := by
  induction count with
  | zero => simp [equalMembers, Ty.headSizes]
  | succ count ih => rw [equalMembers_succ, Ty.headSizes, ih, Nat.succ_mul, Nat.add_comm]

theorem encodeMembers_equalMembers (elem : Ty) (items : List Value) :
    encodeMembers (equalMembers elem items.length) items =
      (do
        let contents ← items.mapM (encodeValue elem)
        return contents.map (Piece.mk elem.isDynamic)) := by
  induction items with
  | nil => rfl
  | cons v vs ih =>
    rw [List.length_cons, equalMembers_succ, encodeMembers, ih, List.mapM_cons]
    cases encodeValue elem v with
    | error e => rfl
    | ok content =>
      cases vs.mapM (encodeValue elem) with
      | error e => rfl
      | ok contents => rfl

theorem readRun_eq_decodeMembers (elem : Ty) (data : Bytes) (base count cursor : Nat) :
    readRun (readMember (decodeValue elem data) elem.isDynamic data base) elem.headSize count cursor =
      (do
        let fields ← decodeMembers (equalMembers elem count) data base cursor
        return fields.map (·.val)) := by
  induction count generalizing cursor with
  | zero => rfl
  | succ count ih =>
    rw [readRun, ih, equalMembers_succ, decodeMembers]
    cases readMember (decodeValue elem data) elem.isDynamic data base cursor with
    | error e => rfl
    | ok v =>
      cases decodeMembers (equalMembers elem count) data base (advance cursor elem.headSize) with
      | error e => rfl
      | ok fields => rfl

/-! ### What has an encoding -/

variable {v : Value} {b : Bytes} {w : Width}

attribute [local simp] encodeValue

theorem encodeValue_address (h : encodeValue .address v = .ok b) :
    ∃ a, v = .address a ∧ b = a.toWord.toBytes := by
  cases v with
  | address a =>
    rw [encodeValue] at h
    exact ⟨a, rfl, (Except.ok.inj h).symm⟩
  | _ => simp at h

theorem encodeValue_bool (h : encodeValue .bool v = .ok b) :
    ∃ x, v = .bool x ∧ b = sizeWord x.toNat := by
  cases v with
  | bool x =>
    rw [encodeValue] at h
    exact ⟨x, rfl, (Except.ok.inj h).symm⟩
  | _ => simp at h

theorem encodeValue_uint (h : encodeValue (.uint w) v = .ok b) :
    ∃ word bits, v = .uint word bits ∧ fitsUnsigned word w.bits ∧ b = word.toBytes := by
  cases v with
  | uint word bits =>
    rw [encodeValue] at h
    split at h
    · next hfits => exact ⟨word, bits, rfl, hfits, (Except.ok.inj h).symm⟩
    · cases h
  | _ => simp at h

theorem encodeValue_int (h : encodeValue (.int w) v = .ok b) :
    ∃ word bits, v = .int word bits ∧ fitsSigned word w.bits ∧ b = word.toBytes := by
  cases v with
  | int word bits =>
    rw [encodeValue] at h
    split at h
    · next hfits => exact ⟨word, bits, rfl, hfits, (Except.ok.inj h).symm⟩
    · cases h
  | _ => simp at h

theorem encodeValue_fixedBytes (h : encodeValue (.fixedBytes w) v = .ok b) :
    ∃ bs, v = .fixedBytes bs ∧ bs.length = w.bytes ∧ b = bs.padRight := by
  cases v with
  | fixedBytes bs =>
    rw [encodeValue] at h
    split at h
    · next hlen => exact ⟨bs, rfl, hlen, (Except.ok.inj h).symm⟩
    · cases h
  | _ => simp at h

theorem encodeValue_function (h : encodeValue .function v = .ok b) :
    ∃ bs, v = .fixedBytes bs ∧ bs.length = 24 ∧ b = bs.padRight := by
  cases v with
  | fixedBytes bs =>
    rw [encodeValue] at h
    split at h
    · next hlen => exact ⟨bs, rfl, hlen, (Except.ok.inj h).symm⟩
    · cases h
  | _ => simp at h

theorem encodeValue_bytes (h : encodeValue .bytes v = .ok b) :
    ∃ bs, v = .bytes bs ∧ b = lengthPrefixed bs := by
  cases v with
  | bytes bs =>
    rw [encodeValue] at h
    exact ⟨bs, rfl, (Except.ok.inj h).symm⟩
  | _ => simp at h

theorem encodeValue_string (h : encodeValue .string v = .ok b) :
    ∃ s, v = .string s ∧ b = lengthPrefixed (Text.utf8 s) := by
  cases v with
  | string s =>
    rw [encodeValue] at h
    exact ⟨s, rfl, (Except.ok.inj h).symm⟩
  | _ => simp at h

theorem encodeValue_array {elem : Ty} (h : encodeValue (.array elem) v = .ok b) :
    ∃ items ps, v = .array items ∧
      encodeMembers (equalMembers elem items.length) items = .ok ps ∧
      b = sizeWord items.length ++
        layout (Ty.headSizes (equalMembers elem items.length)) ps := by
  cases v with
  | array items =>
    rw [encodeValue] at h
    obtain ⟨contents, hcontents, h⟩ := bind_eq_ok_iff.1 h
    refine ⟨items, contents.map (Piece.mk elem.isDynamic), rfl, ?_, ?_⟩
    · rw [encodeMembers_equalMembers, hcontents]
      rfl
    · rw [headSizes_equalMembers]
      exact (Except.ok.inj h).symm
  | _ => simp at h

theorem encodeValue_fixedArray {elem : Ty} {size : UInt64}
    (h : encodeValue (.fixedArray elem size) v = .ok b) :
    ∃ items ps, v = .fixedArray items ∧ items.length = size.toNat ∧
      encodeMembers (equalMembers elem items.length) items = .ok ps ∧
      b = layout (Ty.headSizes (equalMembers elem items.length)) ps := by
  cases v with
  | fixedArray items =>
    rw [encodeValue] at h
    split at h
    · next hlen =>
      obtain ⟨contents, hcontents, h⟩ := bind_eq_ok_iff.1 h
      refine ⟨items, contents.map (Piece.mk elem.isDynamic), rfl, hlen, ?_, ?_⟩
      · rw [encodeMembers_equalMembers, hcontents]
        rfl
      · rw [headSizes_equalMembers]
        exact (Except.ok.inj h).symm
    · cases h
  | _ => simp at h

theorem encodeValue_tuple {members : List (Member Ty)}
    (h : encodeValue (.tuple members) v = .ok b) :
    ∃ fields ps, v = .tuple fields ∧ members.length = fields.length ∧
      encodeMembers members (fields.map (·.val)) = .ok ps ∧
      b = layout (Ty.headSizes members) ps := by
  cases v with
  | tuple fields =>
    rw [encodeValue] at h
    split at h
    · next hlen =>
      obtain ⟨ps, hps, h⟩ := bind_eq_ok_iff.1 h
      exact ⟨fields, ps, rfl, hlen, hps, (Except.ok.inj h).symm⟩
    · cases h
  | _ => simp at h

/-! ### Lengths -/

/-- Static values of the type take as many bytes as the type says. -/
def TakesHeadSize (ty : Ty) : Prop :=
  ∀ v b, encodeValue ty v = .ok b → ty.isDynamic = false → b.length ≤ max64 →
    b.length = ty.headSize

theorem headSize_piece {content : Bytes} (hm : TakesHeadSize m.val)
    (h : encodeValue m.val v = .ok content)
    (hle : (Piece.mk m.val.isDynamic content).headSize ≤ max64) :
    (Piece.mk m.val.isDynamic content).headSize = m.val.headSize := by
  rw [Piece.headSize] at hle ⊢
  cases hdynamic : m.val.isDynamic with
  | true => exact (Ty.headSize_of_isDynamic hdynamic).symm
  | false =>
    simp only [hdynamic, Bool.false_eq_true, if_false] at hle ⊢
    exact hm v content h hdynamic hle

theorem sum_headSize {vs : List Value} {ps : List Piece} (hms : ∀ m ∈ ms, TakesHeadSize m.val)
    (h : encodeMembers ms vs = .ok ps) (hlen : ms.length = vs.length)
    (hle : (ps.map Piece.headSize).sum ≤ max64) :
    (ps.map Piece.headSize).sum = Ty.headSizes ms := by
  induction ms generalizing vs ps with
  | nil =>
    obtain rfl := List.length_eq_zero_iff.1 hlen.symm
    obtain rfl := Except.ok.inj h
    rfl
  | cons m ms ih =>
    obtain ⟨v, vs, rfl⟩ := List.exists_cons_of_length_eq_add_one hlen.symm
    obtain ⟨content, rest, hcontent, hrest, rfl⟩ := encodeMembers_cons h
    rw [List.map_cons, List.sum_cons] at hle ⊢
    rw [headSize_piece (hms m List.mem_cons_self) hcontent (by omega),
      ih (fun m' hm' => hms m' (List.mem_cons_of_mem m hm')) hrest (by simpa using hlen) (by omega),
      Ty.headSizes]

theorem static_of_encodeMembers {vs : List Value} {ps : List Piece}
    (hms : ∀ m ∈ ms, m.val.isDynamic = false) (h : encodeMembers ms vs = .ok ps) :
    ∀ p ∈ ps, p.isDynamic = false := by
  induction ms generalizing vs ps with
  | nil =>
    obtain rfl := Except.ok.inj h
    intro p hp
    cases hp
  | cons m ms ih =>
    cases vs with
    | nil =>
      obtain rfl := Except.ok.inj h
      intro p hp
      cases hp
    | cons v vs =>
      obtain ⟨content, rest, _, hrest, rfl⟩ := encodeMembers_cons h
      intro p hp
      rcases List.mem_cons.1 hp with rfl | hp
      · exact hms m List.mem_cons_self
      · exact ih (fun m' hm' => hms m' (List.mem_cons_of_mem m hm')) hrest p hp

theorem sum_le_length_layout (size : Nat) (ps : List Piece) :
    (ps.map Piece.headSize).sum ≤ (layout size ps).length := by
  rw [layout, List.length_append, length_head_layoutFrom]
  omega

theorem length_layout_of_static {ps : List Piece} (hps : ∀ p ∈ ps, p.isDynamic = false)
    (size : Nat) : (layout size ps).length = (ps.map Piece.headSize).sum := by
  rw [layout, tail_layoutFrom_of_static hps, List.append_nil, length_head_layoutFrom]

theorem Width.bytes_bounds (w : Width) : 1 ≤ w.bytes ∧ w.bytes ≤ 32 := by
  have hlt := w.index.isLt
  simp only [Width.bytes]
  omega

theorem length_padRight_of_le {bs : Bytes} (hpos : 1 ≤ bs.length) (hle : bs.length ≤ 32) :
    bs.padRight.length = 32 := by
  rw [Bytes.length_padRight]
  omega

/-- A value of an elementary type takes one word. -/
theorem length_of_isElementary {ty : Ty} (hty : ty.isElementary = true)
    (h : encodeValue ty v = .ok b) : b.length = 32 := by
  cases ty with
  | address =>
    obtain ⟨a, _, hb⟩ := encodeValue_address h
    rw [hb, Word.length_toBytes]
  | bool =>
    obtain ⟨x, _, hb⟩ := encodeValue_bool h
    rw [hb, length_sizeWord]
  | uint w =>
    obtain ⟨word, _, _, _, hb⟩ := encodeValue_uint h
    rw [hb, Word.length_toBytes]
  | int w =>
    obtain ⟨word, _, _, _, hb⟩ := encodeValue_int h
    rw [hb, Word.length_toBytes]
  | fixedBytes w =>
    obtain ⟨bs, _, hlen, hb⟩ := encodeValue_fixedBytes h
    have hw := w.bytes_bounds
    rw [hb]
    exact length_padRight_of_le (by omega) (by omega)
  | function =>
    obtain ⟨bs, _, hlen, hb⟩ := encodeValue_function h
    rw [hb]
    exact length_padRight_of_le (by omega) (by omega)
  | _ => cases hty

/-- The encoding of a static value has the size of its head entry. -/
theorem length_of_encodeValue (ty : Ty) : TakesHeadSize ty := by
  induction ty using Ty.induct with
  | address | bool | uint w | int w | fixedBytes w | function =>
    intro v b h _ _
    exact length_of_isElementary rfl h
  | bytes | string | array elem =>
    intro v b _ hstatic
    cases hstatic
  | fixedArray elem size ih =>
    intro v b h hstatic hle
    have helem : elem.isDynamic = false := hstatic
    obtain ⟨items, ps, rfl, hlen, hps, rfl⟩ := encodeValue_fixedArray h
    have hmembers : ∀ m ∈ equalMembers elem items.length, m.val = elem := by
      intro m hm
      rw [List.eq_of_mem_replicate hm]
      rfl
    have hstatics := static_of_encodeMembers (fun m hm => by rw [hmembers m hm, helem]) hps
    rw [length_layout_of_static hstatics] at hle ⊢
    have hsum := sum_headSize (fun m hm => by rw [hmembers m hm]; exact ih) hps
      (by simp [equalMembers]) hle
    have hstatic' : ¬ elem.isDynamic = true := by simp [helem]
    rw [hsum, headSizes_equalMembers, hlen, Nat.mul_comm] at hle ⊢
    rw [Ty.headSize, if_neg hstatic', Nat.min_eq_left hle]
  | tuple members ih =>
    intro v b h hstatic hle
    have hmembers := Ty.anyDynamic_eq_false hstatic
    obtain ⟨fields, ps, rfl, hlen, hps, rfl⟩ := encodeValue_tuple h
    have hstatics := static_of_encodeMembers hmembers hps
    rw [length_layout_of_static hstatics] at hle ⊢
    have hsum := sum_headSize ih hps (by simpa using hlen) hle
    have hstatic' : ¬ Ty.anyDynamic members = true := by
      intro hdynamic
      rw [Ty.isDynamic, hdynamic] at hstatic
      cases hstatic
    rw [hsum] at hle ⊢
    rw [Ty.headSize, if_neg hstatic', Nat.min_eq_left hle]

end TxTrace.Abi

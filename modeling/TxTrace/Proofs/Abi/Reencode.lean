import Mathlib.Algebra.Ring.Int.Defs
import TxTrace.Abi.Ty.Parser
import TxTrace.Proofs.Abi.Decoded
import TxTrace.Proofs.Abi.RoundTrip

/-!
Encoding decoded values. Decoding keeps the whole word of an integer, and nothing but an integer outside
the range of its type keeps decoded values from being encoded again; when they are, they are decoded
from there unchanged (`encode_of_decode`).
-/

namespace TxTrace.Abi

variable {data b : Bytes} {pos : Nat} {ty elem : Ty} {v : Value} {types : List Ty}
  {values : List Value}

/-! ### Ranges of integers -/

theorem Width.bits_bounds (w : Width) : 1 ≤ w.bits ∧ w.bits ≤ 256 := by
  have hbytes := w.bytes_bounds
  rw [Width.bits]
  omega

theorem fitsUnsigned_iff {word : Word} {bits : Nat} :
    fitsUnsigned word bits ↔ word.toNat < 2 ^ bits := by
  have hword : word.toNat % 2 ^ bits ≤ word.toNat := Nat.mod_le _ _
  rw [fitsUnsigned, beq_iff_eq, BitVec.toNat_eq, BitVec.toNat_setWidth, BitVec.toNat_setWidth,
    Nat.mod_eq_of_lt (Nat.lt_of_le_of_lt hword word.isLt)]
  exact Nat.mod_eq_iff_lt (Nat.two_pow_pos bits).ne'

theorem fitsSigned_iff {word : Word} {bits : Nat} (hpos : 1 ≤ bits) (hle : bits ≤ 256) :
    fitsSigned word bits ↔
      -(2 : Int) ^ (bits - 1) ≤ word.toInt ∧ word.toInt < (2 : Int) ^ (bits - 1) := by
  have hdvd : 2 ^ bits ∣ 2 ^ 256 := Nat.pow_dvd_pow 2 hle
  -- cutting a word off and extending its sign again leaves the integer nearest to zero
  have hextend : ((word.setWidth bits).signExtend 256).toInt = word.toInt.bmod (2 ^ bits) := by
    rw [BitVec.toInt_signExtend_of_le hle, BitVec.toInt_setWidth, BitVec.toInt_eq_toNat_bmod word,
      Int.bmod_bmod_of_dvd hdvd]
  rw [fitsSigned, beq_iff_eq, ← BitVec.toInt_inj, hextend]
  constructor
  · intro heq
    rw [← heq, BitVec.toInt_eq_toNat_bmod, Int.bmod_bmod_of_dvd hdvd, ← BitVec.toInt_setWidth]
    exact ⟨BitVec.le_toInt _, BitVec.toInt_lt⟩
  · rintro ⟨hlow, hhigh⟩
    have hpow : (2 : Int) ^ (bits - 1) * 2 = (2 ^ bits : Nat) := by
      rw [← Int.pow_succ, Nat.succ_eq_add_one, Nat.sub_add_cancel hpos, Int.natCast_pow]
      rfl
    exact Int.bmod_eq_of_le_mul_two (by omega) (by omega)

namespace Value

/-- An integer of the type is in the range of its width. -/
def InRange : Ty → Value → Prop
  | .uint w, .uint word _ => word.toNat < 2 ^ w.bits
  | .int w, .int word _ =>
    -(2 : Int) ^ (w.bits - 1) ≤ word.toInt ∧ word.toInt < (2 : Int) ^ (w.bits - 1)
  | _, _ => True

/-- A byte string of a type with a length has that length. -/
def IsFull : Ty → Value → Prop
  | .fixedBytes w, .fixedBytes bs => bs.length = w.bytes
  | .function, .fixedBytes bs => bs.length = 24
  | _, _ => True

/-- The value has the integer width or the member names of the type. -/
def IsLabelled : Ty → Value → Prop
  | .uint w, .uint _ bits | .int w, .int _ bits => bits = w.bits
  | .tuple members, .tuple fields => fields.map (·.name) = members.map (·.name)
  | _, _ => True

end Value

/-! ### What has an encoding -/

theorem inRange_and_isFull_of_encodeValue (h : encodeValue ty v = .ok b) :
    v.InRange ty ∧ v.IsFull ty := by
  cases ty with
  | uint w =>
    obtain ⟨word, bits, rfl, hfits, -⟩ := encodeValue_uint h
    exact ⟨fitsUnsigned_iff.1 hfits, trivial⟩
  | int w =>
    obtain ⟨word, bits, rfl, hfits, -⟩ := encodeValue_int h
    exact ⟨(fitsSigned_iff w.bits_bounds.1 w.bits_bounds.2).1 hfits, trivial⟩
  | fixedBytes w =>
    obtain ⟨bs, rfl, hlen, -⟩ := encodeValue_fixedBytes h
    exact ⟨trivial, hlen⟩
  | function =>
    obtain ⟨bs, rfl, hlen, -⟩ := encodeValue_function h
    exact ⟨trivial, hlen⟩
  | _ => exact ⟨trivial, trivial⟩

theorem exists_encodeValue_of_not_isComposite (hty : ty.isComposite = false) (hform : v.IsOf ty)
    (hrange : v.InRange ty) (hfull : v.IsFull ty) : ∃ b, encodeValue ty v = .ok b := by
  cases ty with
  | array _ | fixedArray _ _ | tuple _ => cases hty
  | uint w =>
    cases v with
    | uint word bits => exact ⟨_, by rw [encodeValue, if_pos (fitsUnsigned_iff.2 hrange)]⟩
    | _ => exact hform.elim
  | int w =>
    cases v with
    | int word bits =>
      have hfits := (fitsSigned_iff w.bits_bounds.1 w.bits_bounds.2).2 hrange
      exact ⟨_, by rw [encodeValue, if_pos hfits]⟩
    | _ => exact hform.elim
  | fixedBytes w =>
    cases v with
    | fixedBytes bs =>
      have hlen : bs.length = w.bytes := hfull
      exact ⟨_, by rw [encodeValue, if_pos hlen]⟩
    | _ => exact hform.elim
  | function =>
    cases v with
    | fixedBytes bs =>
      have hlen : bs.length = 24 := hfull
      exact ⟨_, by rw [encodeValue, if_pos hlen]⟩
    | _ => exact hform.elim
  | _ =>
    cases v <;> first | exact ⟨_, by rw [encodeValue]⟩ | exact hform.elim

/-- The items of an array have encodings if they have one as the members of a tuple. -/
theorem exists_mapM_encodeValue {items : List Value}
    (hitems : ∀ item ∈ items, ∃ b, encodeValue elem item = .ok b) :
    ∃ contents, items.mapM (encodeValue elem) = .ok contents := by
  obtain ⟨ps, hps⟩ := exists_encodeMembers_equalMembers_iff.2 hitems
  rw [encodeMembers_equalMembers] at hps
  obtain ⟨contents, hcontents, -⟩ := bind_eq_ok_iff.1 hps
  exact ⟨contents, hcontents⟩

/-- The values of a type that have an encoding. -/
theorem exists_encodeValue_iff :
    (∃ b, encodeValue ty v = .ok b) ↔
      Value.Each (fun ty v => v.InRange ty ∧ v.IsFull ty) ty v := by
  constructor
  · rintro ⟨b, h⟩
    exact each_of_encodeValue inRange_and_isFull_of_encodeValue h
  · intro h
    refine h.induction ?plain ?array ?fixedArray ?tuple
    case plain =>
      rintro ty v hty hform ⟨hrange, hfull⟩
      exact exists_encodeValue_of_not_isComposite hty hform hrange hfull
    case array =>
      intro elem items _ hitems
      obtain ⟨contents, hcontents⟩ := exists_mapM_encodeValue hitems
      exact ⟨_, by rw [encodeValue, hcontents]; rfl⟩
    case fixedArray =>
      intro elem size items hlen _ hitems
      obtain ⟨contents, hcontents⟩ := exists_mapM_encodeValue hitems
      exact ⟨_, by rw [encodeValue, if_pos hlen, hcontents]; rfl⟩
    case tuple =>
      intro members fields _ hfields
      obtain ⟨ps, hps⟩ := (exists_encodeMembers_iff hfields.length_eq).2 hfields
      exact ⟨_, by rw [encodeValue, if_pos (by simpa using hfields.length_eq), hps]; rfl⟩

theorem exists_encode_iff (hlen : types.length = values.length) :
    (∃ b, encode types values = .ok b) ↔
      List.Forall₂ (fun ty v => ∃ b, encodeValue ty v = .ok b) types values := by
  have hmembers : (types.map Member.unnamed).length = values.length := by simpa using hlen
  have hiff := exists_encodeMembers_iff hmembers
  rw [List.forall₂_map_left_iff] at hiff
  refine Iff.trans ?_ hiff
  rw [encode, if_pos hlen]
  constructor
  · rintro ⟨b, h⟩
    obtain ⟨ps, hps, -⟩ := bind_eq_ok_iff.1 h
    exact ⟨ps, hps⟩
  · rintro ⟨ps, hps⟩
    exact ⟨_, by dsimp only; rw [hps]; rfl⟩

/-! ### What was decoded -/

theorem isFull_and_isLabelled_of_decodeValue (h : decodeValue ty data pos = .ok v) :
    v.IsFull ty ∧ v.IsLabelled ty := by
  cases ty with
  | fixedBytes w =>
    rw [decodeValue] at h
    obtain ⟨bs, hbs, h⟩ := bind_eq_ok_iff.1 h
    obtain rfl := Except.ok.inj h
    have hw := w.bytes_bounds
    refine ⟨?_, trivial⟩
    rw [Value.IsFull, List.length_take, length_of_readBytes hbs]
    omega
  | function =>
    rw [decodeValue] at h
    obtain ⟨bs, hbs, h⟩ := bind_eq_ok_iff.1 h
    obtain rfl := Except.ok.inj h
    refine ⟨?_, trivial⟩
    rw [Value.IsFull, List.length_take, length_of_readBytes hbs]
    rfl
  | array elem =>
    obtain ⟨items, rfl, -⟩ := decodeValue_array h
    exact ⟨trivial, trivial⟩
  | fixedArray elem size =>
    obtain ⟨items, rfl, -⟩ := decodeValue_fixedArray h
    exact ⟨trivial, trivial⟩
  | tuple members =>
    obtain ⟨fields, rfl, hfields⟩ := decodeValue_tuple h
    refine ⟨trivial, ?_⟩
    have hnames : List.Forall₂ Eq (fields.map (·.name)) (members.map (·.name)) := by
      rw [List.forall₂_map_left_iff, List.forall₂_map_right_iff]
      exact (hfields.imp fun m f h => h.1).flip
    rw [List.forall₂_eq_eq_eq] at hnames
    exact hnames
  | _ =>
    rw [decodeValue] at h
    obtain ⟨read, -, h⟩ := bind_eq_ok_iff.1 h
    obtain rfl := Except.ok.inj h
    first | exact ⟨trivial, trivial⟩ | exact ⟨trivial, rfl⟩

theorem retypeMembers_eq_self {members : List (Member Ty)} {fields : List (Member Value)}
    (hnames : fields.map (·.name) = members.map (·.name))
    (hfields : List.Forall₂ (fun m v => v.retype m.val = v) members (fields.map (·.val))) :
    Value.retypeMembers members (fields.map (·.val)) = fields := by
  induction members generalizing fields with
  | nil =>
    obtain rfl : fields = [] := by simpa using hnames
    rfl
  | cons m ms ih =>
    cases fields with
    | nil => cases hnames
    | cons f fs =>
      obtain ⟨hname, hnames⟩ := List.cons.inj hnames
      rw [List.map_cons, List.forall₂_cons] at hfields
      dsimp only at hname
      rw [List.map_cons, Value.retypeMembers, hfields.1, ih hnames hfields.2, ← hname]

/-- A value that has the widths and the names of the type is left as it is by retyping. -/
theorem retype_eq_self (hv : Value.Each Value.IsLabelled ty v) : v.retype ty = v := by
  refine hv.induction ?plain ?array ?fixedArray ?tuple
  case plain =>
    intro ty v hty hform hlabel
    cases ty with
    | array _ | fixedArray _ _ | tuple _ => cases hty
    | uint w =>
      cases v with
      | uint word bits => rw [Value.retype, hlabel]
      | _ => exact hform.elim
    | int w =>
      cases v with
      | int word bits => rw [Value.retype, hlabel]
      | _ => exact hform.elim
    | _ => simp [Value.retype]
  case array =>
    intro elem items _ hitems
    rw [Value.retype, List.map_congr_left hitems, List.map_id']
  case fixedArray =>
    intro elem size items _ _ hitems
    rw [Value.retype, List.map_congr_left hitems, List.map_id']
  case tuple =>
    intro members fields hnames hfields
    rw [Value.retype, retypeMembers_eq_self hnames hfields]

theorem zipWith_retype_eq_self (h : List.Forall₂ (Value.Each Value.IsLabelled) types values) :
    List.zipWith Value.retype types values = values := by
  induction h with
  | nil => rfl
  | cons hv hvs ih => rw [List.zipWith_cons_cons, retype_eq_self hv, ih]

/-- Decoded values are encoded again exactly if each integer among them is in the range of its type, and
    they are decoded from there unchanged. The length of a byte string in memory has 64 bits. -/
theorem encode_of_decode (htypes : ∀ ty ∈ types, ty.elementsTakeBytes = true)
    (h : decode types data = .ok values) :
    ((∃ b, encode types values = .ok b) ↔
        List.Forall₂ (Value.Each Value.InRange) types values) ∧
      ∀ b, encode types values = .ok b → b.length ≤ max64 → decode types b = .ok values := by
  have hread := each_of_decode isFull_and_isLabelled_of_decodeValue h
  constructor
  · rw [exists_encode_iff hread.length_eq]
    simp only [exists_encodeValue_iff]
    constructor
    · exact fun hencode => hencode.imp fun ty v hv => hv.imp And.left
    · exact fun hrange => hrange.mp (fun ty v hv hv' => hv.and (hv'.imp And.left)) hread
  · intro b hb hmemory
    rw [decode_of_encode htypes hmemory hb]
    exact congrArg Except.ok (zipWith_retype_eq_self (hread.imp fun ty v hv => hv.imp And.right))

/-- A boolean that is not written as one, and a string with a byte that is not text. -/
def looseTypes : List Ty := [.bool, .string, .int .word]

def looseBytes : Bytes :=
  sizeWord 2 ++ sizeWord 96 ++ List.replicate 32 255 ++ (sizeWord 1 ++ [255])

def looseValues : List Value := [.bool true, .string "\ufffd", .int (-1) 256]

def tightBytes : Bytes :=
  sizeWord 1 ++ sizeWord 96 ++ List.replicate 32 255 ++ lengthPrefixed [239, 191, 189]

set_option maxRecDepth 4000 in
theorem encode_of_decode_loose :
    decode looseTypes looseBytes = .ok looseValues ∧
      encode looseTypes looseValues = .ok tightBytes ∧
      decode looseTypes tightBytes = .ok looseValues := by
  have htypes : ∀ ty ∈ looseTypes, ty.elementsTakeBytes = true := by decide
  have hdecode : decode looseTypes looseBytes = .ok looseValues := rfl
  have hencode : encode looseTypes looseValues = .ok tightBytes := eq_ok_of_toOption (by decide +kernel)
  have hmemory : tightBytes.length ≤ max64 := by decide +kernel
  exact ⟨hdecode, hencode, (encode_of_decode htypes hdecode).2 tightBytes hencode hmemory⟩

/-- What is decoded as an integer of eight bits may have more. -/
theorem not_forall_encode_of_decode :
    ¬ ∀ (types : List Ty) (data : Bytes) (values : List Value),
      (∀ ty ∈ types, (∃ text, Ty.parse text = .ok ty) ∧ ty.elementsTakeBytes = true) →
      decode types data = .ok values →
      ∃ b, encode types values = .ok b ∧ decode types b = .ok values := by
  intro h
  have hparse : ∀ ty ∈ [Ty.uint ⟨0⟩],
      (∃ text, Ty.parse text = .ok ty) ∧ ty.elementsTakeBytes = true := by
    intro ty hty
    rw [List.mem_singleton.1 hty]
    exact ⟨⟨"uint8", by cbv⟩, rfl⟩
  have hdecode : decode [.uint ⟨0⟩] (sizeWord 256) = .ok [.uint 256 8] := rfl
  have hencode : encode [.uint ⟨0⟩] [.uint 256 8] =
      .error (.typeMismatch (.uint ⟨0⟩) (.uint 256 8)) := rfl
  obtain ⟨b, hb, -⟩ := h _ _ _ hparse hdecode
  rw [hencode] at hb
  cases hb

end TxTrace.Abi

import TxTrace.Abi.Entry
import TxTrace.Proofs.Abi.RoundTrip

/-!
The arguments of an entry. They are decoded as they were encoded, each with its parameter
(`decodeArguments_of_encode`).
-/

namespace TxTrace.Abi

/-- The arguments of a call are decoded as they were encoded, each with its parameter. -/
theorem decodeArguments_of_encode {params : List Parameter} {values : List Value} {b : Bytes}
    (htypes : ∀ ty ∈ params.map (·.type), ty.elementsTakeBytes = true) (hmemory : b.length ≤ max64)
    (h : encode (params.map (·.type)) values = .ok b) :
    decodeArguments params b =
      .ok (List.zipWith (fun p v => ⟨p.name, p.type, v.retype p.type⟩) params values) := by
  rw [decodeArguments, decode_of_encode htypes hmemory h, ok_bind]
  apply congrArg Except.ok
  apply List.ext_getElem?
  intro k
  simp only [List.getElem?_zipWith, List.getElem?_map]
  cases params[k]? with
  | none => rfl
  | some p => cases values[k]? <;> rfl

/-- An elementary value alone is encoded as it is in a sequence. -/
theorem encodeValue_of_encode {ty : Ty} {v : Value} {b : Bytes} (hty : ty.isElementary = true)
    (h : encode [ty] [v] = .ok b) : encodeValue ty v = .ok b := by
  have hstatic : ty.isDynamic = false := by cases ty <;> first | rfl | cases hty
  rw [encode] at h
  simp only [List.length_cons, List.length_nil, if_true] at h
  obtain ⟨pieces, hpieces, h⟩ := bind_eq_ok_iff.1 h
  obtain ⟨content, rest, hcontent, hrest, rfl⟩ := encodeMembers_cons hpieces
  obtain rfl := Except.ok.inj hrest
  have hb := Except.ok.inj h
  rw [layout, layoutFrom_of_not_isDynamic hstatic] at hb
  have hlayout : content = b := by simpa [layoutFrom] using hb
  rw [← hlayout]
  exact hcontent

end TxTrace.Abi

import TxTrace.Proofs.Abi.Arguments
import TxTrace.Proofs.Registry.Lookup
import TxTrace.Revert

/-!
The reasons that contracts encode when they fail, and what is read of them (`RevertReason.ofData_of_encode`).
Data in no known form is kept as it is.
-/

namespace TxTrace.RevertReason

open Abi

/-- The errors that are looked through for a selector, in this order: those of the contract itself, then
    those of all contracts by address. -/
def errors (abi : Option Interface) (r : Registry) : List Entry :=
  abi.elim [] (·.errors) ++ r.contracts.flatMap (·.abi.errors)

variable {abi : Option Interface} {r : Registry} {selector : Selector} {body : Bytes}

theorem find?_errors (abi : Option Interface) (r : Registry) (selector : Selector) :
    (errors abi r).find? (·.selector == selector) =
      (abi.bind (·.errorBySelector selector)).or ((r.findError? selector).map (·.2)) := by
  rw [errors, List.find?_append, Registry.findError?_eq]
  cases abi <;> rfl

theorem ofData_append (abi : Option Interface) (r : Registry) (selector : Selector) (body : Bytes) :
    ofData (selector.toBytes ++ body) abi r =
      (ofBody? selector body abi r).getD (raw (selector.toBytes ++ body)) := by
  have hlength := Selector.length_toBytes selector
  have hnonempty : ¬ (selector.toBytes ++ body).isEmpty := by
    rw [List.isEmpty_iff_length_eq_zero, List.length_append, hlength]
    omega
  rw [ofData, if_neg hnonempty, Selector.ofPayload?_append, Option.bind_some, List.drop_left' hlength]

theorem ofBody?_text {s : String} (hmemory : body.length ≤ max64)
    (h : encode [.string] [.string s] = .ok body) :
    ofBody? errorSelector body abi r = some (text s) := by
  rw [ofBody?, if_pos rfl, decode_of_encode (by simp [Ty.elementsTakeBytes]) hmemory h]
  rfl

theorem ofBody?_panic {code : Word} {bits : Nat}
    (h : encode [.uint .word] [.uint code bits] = .ok body) :
    ofBody? panicSelector body abi r = some (panic code) := by
  have hmemory : body.length ≤ max64 := by
    rw [length_of_isElementary rfl (encodeValue_of_encode rfl h)]
    decide
  rw [ofBody?, if_neg (by decide), if_pos rfl,
    decode_of_encode (by simp [Ty.elementsTakeBytes]) hmemory h]
  rfl

theorem ofBody?_custom {error : Entry} {arguments : List Argument}
    (htext : error.selector ≠ errorSelector) (hpanic : error.selector ≠ panicSelector)
    (hfirst : (errors abi r).find? (·.selector == error.selector) = some error)
    (h : decodeArguments error.inputs body = .ok arguments) :
    ofBody? error.selector body abi r = some (custom error.name arguments) := by
  rw [find?_errors] at hfirst
  rw [ofBody?, if_neg htext, if_neg hpanic, hfirst]
  simp [h, Except.toOption]

/-- A body in a known form is never shown as no data or as raw data. -/
theorem ne_of_ofBody? {reason : RevertReason} (h : ofBody? selector body abi r = some reason) :
    reason ≠ silent ∧ ∀ data, reason ≠ raw data := by
  unfold ofBody? at h
  split at h
  · split at h
    · cases h
      exact ⟨nofun, nofun⟩
    · cases h
  · split at h
    · split at h
      · cases h
        exact ⟨nofun, nofun⟩
      · cases h
    · obtain ⟨error, _, h⟩ := Option.bind_eq_some_iff.1 h
      obtain ⟨arguments, _, h⟩ := Option.bind_eq_some_iff.1 h
      cases h
      exact ⟨nofun, nofun⟩

theorem ofData_of_ne_nil (abi : Option Interface) (r : Registry) {data : Bytes} (hdata : data ≠ []) :
    ofData data abi r = raw data ∨
      ∃ selector body reason, ofBody? selector body abi r = some reason ∧ ofData data abi r = reason := by
  rw [ofData, if_neg (by simpa using hdata)]
  cases hreason : (Selector.ofPayload? data).bind fun selector =>
      ofBody? selector (data.drop 4) abi r with
  | none => exact .inl rfl
  | some reason =>
    obtain ⟨selector, _, hbody⟩ := Option.bind_eq_some_iff.1 hreason
    exact .inr ⟨selector, data.drop 4, reason, hbody, rfl⟩

theorem ofData_eq_silent_iff {data : Bytes} : ofData data abi r = silent ↔ data = [] := by
  constructor
  · intro h
    by_contra hdata
    rcases ofData_of_ne_nil abi r hdata with hraw | ⟨selector, body, reason, hbody, heq⟩
    · cases hraw.symm.trans h
    · exact (ne_of_ofBody? hbody).1 (heq.symm.trans h)
  · rintro rfl
    rfl

theorem eq_of_ofData_eq_raw {data rest : Bytes} (h : ofData data abi r = raw rest) : rest = data := by
  by_cases hdata : data = []
  · cases (ofData_eq_silent_iff.2 hdata).symm.trans h
  · rcases ofData_of_ne_nil abi r hdata with hraw | ⟨selector, body, reason, hbody, heq⟩
    · exact raw.inj (h.symm.trans hraw)
    · exact absurd (heq.symm.trans h) ((ne_of_ofBody? hbody).2 rest)

theorem exists_encode_text (s : String) : ∃ body, encode [.string] [.string s] = .ok body :=
  ⟨_, rfl⟩

theorem exists_encode_panic (code : Word) (bits : Nat) :
    ∃ body, encode [.uint .word] [.uint code bits] = .ok body := by
  have hfits : fitsUnsigned code Width.word.bits = true := by
    rw [fitsUnsigned, beq_iff_eq]
    exact (congrArg (BitVec.setWidth 256) (BitVec.setWidth_eq code)).trans (BitVec.setWidth_eq code)
  have hvalue : encodeValue (.uint .word) (.uint code bits) = .ok code.toBytes := by
    rw [encodeValue, if_pos hfits]
  have hmembers : encodeMembers [⟨none, .uint .word⟩] [.uint code bits] =
      .ok [⟨false, code.toBytes⟩] := by
    rw [encodeMembers, hvalue, ok_bind]
    rfl
  refine ⟨layout 32 [⟨false, code.toBytes⟩], ?_⟩
  rw [encode, if_pos (by rfl)]
  change (encodeMembers [⟨none, .uint .word⟩] [.uint code bits] >>= _) = _
  rw [hmembers]
  rfl

/-- What a contract encodes when it fails is read as what it is: a text, a code of the compiler's, or an
    error that is the first of its selector, with its arguments. Nothing else is lost: only empty data is
    shown as none, and raw data is shown as it is. -/
theorem ofData_of_encode (abi : Option Interface) (r : Registry) :
    (∀ s, ∃ data, encodeCall errorSelector [.string] [.string s] = .ok data ∧
        (data.length ≤ max64 → ofData data abi r = text s)) ∧
      (∀ code bits, ∃ data,
        encodeCall panicSelector [.uint .word] [.uint code bits] = .ok data ∧
        ofData data abi r = panic code ∧
        (ofData data abi r).toJson =
          .object [("PanicCode", .arr [.str (Hex.ofWord code), .str (panicDescription code)])]) ∧
      (∀ (error : Entry) (values : List Value) (body : Bytes),
        error.selector ≠ errorSelector → error.selector ≠ panicSelector →
        (errors abi r).find? (·.selector == error.selector) = some error →
        (∀ ty ∈ error.inputTypes, ty.elementsTakeBytes = true) → body.length ≤ max64 →
        encode error.inputTypes values = .ok body →
        ofData (error.selector.toBytes ++ body) abi r =
          custom error.name
            (List.zipWith (fun p v => ⟨p.name, p.type, v.retype p.type⟩) error.inputs values)) ∧
      ∀ data, (ofData data abi r = silent ↔ data = []) ∧
        ∀ rest, ofData data abi r = raw rest → rest = data := by
  refine ⟨fun s => ?text, fun code bits => ?panic, ?custom,
    fun data => ⟨ofData_eq_silent_iff, fun rest => eq_of_ofData_eq_raw⟩⟩
  case text =>
    obtain ⟨body, hbody⟩ := exists_encode_text s
    refine ⟨errorSelector.toBytes ++ body, by rw [encodeCall, hbody]; rfl, fun hmemory => ?_⟩
    rw [List.length_append] at hmemory
    rw [ofData_append, ofBody?_text (Nat.le_of_add_left_le hmemory) hbody, Option.getD_some]
  case panic =>
    obtain ⟨body, hbody⟩ := exists_encode_panic code bits
    have hpanic : ofData (panicSelector.toBytes ++ body) abi r = panic code := by
      rw [ofData_append, ofBody?_panic hbody, Option.getD_some]
    exact ⟨panicSelector.toBytes ++ body, by rw [encodeCall, hbody]; rfl, hpanic, by rw [hpanic]; rfl⟩
  case custom =>
    intro error values body htext hpanic hfirst htypes hmemory hbody
    have harguments := decodeArguments_of_encode htypes hmemory hbody
    rw [ofData_append, ofBody?_custom htext hpanic hfirst harguments, Option.getD_some]

/-- An error that only the second of two contracts declares. -/
def balanceError : Entry where
  kind := .error
  name := "InsufficientBalance"
  inputs := [⟨"available", .uint .word, false⟩, ⟨"required", .uint .word, false⟩]
  outputs := []
  anonymous := false
  signature := "InsufficientBalance(uint256,uint256)"
  selector := 0xcf479181
  topic := 0

def bankRegistry : Registry :=
  (Registry.empty.insert 0xaa { name := "Router" }).insert 0xbb
    { name := "Bank", abi := { Interface.empty with errors := [balanceError] } }

def balanceBody : Bytes := sizeWord 5 ++ sizeWord 9

/-- The data of a failure with the text `low`. -/
def lowData : Bytes := errorSelector.toBytes ++ (sizeWord 32 ++ lengthPrefixed [0x6c, 0x6f, 0x77])

theorem ofData_of_encode_bankRegistry :
    ofData (balanceError.selector.toBytes ++ balanceBody) (some .empty) bankRegistry =
        custom "InsufficientBalance" [⟨"available", .uint .word, .uint 5 256⟩,
          ⟨"required", .uint .word, .uint 9 256⟩] ∧
      ofData lowData (some .empty) bankRegistry = text "low" := by
  obtain ⟨htext, _, hcustom, _⟩ := ofData_of_encode (some .empty) bankRegistry
  have hfirst : (errors (some .empty) bankRegistry).find? (·.selector == balanceError.selector) =
      some balanceError := rfl
  have htypes : ∀ ty ∈ balanceError.inputTypes, ty.elementsTakeBytes = true := by decide +kernel
  have hbody : encode balanceError.inputTypes [.uint 5 256, .uint 9 256] = .ok balanceBody :=
    eq_ok_of_toOption (by decide +kernel)
  have hlow : encodeCall errorSelector [.string] [.string "low"] = .ok lowData :=
    eq_ok_of_toOption (by decide +kernel)
  obtain ⟨data, hdata, hreason⟩ := htext "low"
  obtain rfl := Except.ok.inj (hdata.symm.trans hlow)
  exact ⟨hcustom balanceError _ balanceBody (by decide) (by decide) hfirst htypes (by decide +kernel)
    hbody, hreason (by decide +kernel)⟩

end TxTrace.RevertReason

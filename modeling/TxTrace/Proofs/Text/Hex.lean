import TxTrace.Hex
import TxTrace.Proofs.Text.Utf8
import TxTrace.Text.Blank

/-!
Texts of hex digits. An even number of them is read as the bytes that the pairs denote (`read_eq_ok`), all
of which are zero exactly if all digits are (`pairBytes_eq_replicate_iff`). The digits of a byte string denote
it (`pairBytes_digits`).
-/

namespace TxTrace.Hex

/-- The value of a hex digit, and zero for every other character. -/
def digitValue (c : Char) : Nat := (value? c).getD 0

/-- The bytes that pairs of digits denote. -/
def pairBytes : (digits : List Nat) → Bytes
  | high :: low :: rest => UInt8.ofNat (high * 16 + low) :: pairBytes rest
  | _ => []

variable {c : Char} {cs : List Char}

theorem value?_bounds {d : Nat} (h : value? c = some d) : d < 16 ∧ 48 ≤ c.toNat ∧ c.toNat < 0x80 := by
  unfold value? Text.digit? at h
  dsimp only at h
  generalize hvalue : (if 48 ≤ c.toNat ∧ c.toNat ≤ 57 then c.toNat - 48
    else if 97 ≤ c.toNat ∧ c.toNat ≤ 122 then c.toNat - 87
    else if 65 ≤ c.toNat ∧ c.toNat ≤ 90 then c.toNat - 55 else 16) = value at h
  by_cases hlt : value < 16
  · rw [if_pos hlt] at h
    obtain rfl := Option.some.inj h
    refine ⟨hlt, ?_⟩
    split at hvalue
    · omega
    · split at hvalue
      · omega
      · split at hvalue <;> omega
  · rw [if_neg hlt] at h
    cases h

theorem digitValue_lt (c : Char) : digitValue c < 16 := by
  rw [digitValue]
  cases h : value? c with
  | none => decide
  | some d => exact (value?_bounds h).1

theorem digitValue_eq_zero_iff : digitValue c = 0 ↔ ∀ d, value? c = some d → d = 0 := by
  rw [digitValue]
  cases value? c with
  | none => simp
  | some d => simp

theorem isBlank_of_isSome (h : (value? c).isSome) : Text.isBlank c = false := by
  obtain ⟨d, hd⟩ := Option.isSome_iff_exists.1 h
  obtain ⟨-, hle, hlt⟩ := value?_bounds hd
  simp only [Text.isBlank, Bool.or_eq_false_iff, Bool.and_eq_false_iff, decide_eq_false_iff_not,
    beq_eq_false_iff_ne]
  omega

/-- A digit is the character of its byte. -/
theorem ofNat_toNat_of_isSome (h : (value? c).isSome) : Char.ofNat (UInt8.ofNat c.toNat).toNat = c := by
  obtain ⟨d, hd⟩ := Option.isSome_iff_exists.1 h
  have hlt := (value?_bounds hd).2.2
  rw [UInt8.toNat_ofNat_of_lt' (by simp only [UInt8.size]; omega), Char.ofNat_toNat]

theorem utf8_of_isSome (hdigits : ∀ c ∈ cs, (value? c).isSome) :
    cs.flatMap String.utf8EncodeChar = cs.map fun c => UInt8.ofNat c.toNat := by
  induction cs with
  | nil => rfl
  | cons c cs ih =>
    obtain ⟨d, hd⟩ := Option.isSome_iff_exists.1 (hdigits c List.mem_cons_self)
    rw [List.flatMap_cons, Text.utf8EncodeChar_of_lt (value?_bounds hd).2.2,
      ih fun c hc => hdigits c (List.mem_cons_of_mem _ hc), List.map_cons, List.singleton_append]

theorem readDigit_of_isSome (h : (value? c).isSome) (position : Nat) :
    readDigit (UInt8.ofNat c.toNat) position = .ok (digitValue c) := by
  obtain ⟨d, hd⟩ := Option.isSome_iff_exists.1 h
  rw [readDigit, ofNat_toNat_of_isSome h, digitValue, hd]
  rfl

theorem length_rest_even {α : Type} {a b : α} {rest : List α} (heven : (a :: b :: rest).length % 2 = 0) :
    rest.length % 2 = 0 := by
  simp only [List.length_cons] at heven
  omega

theorem readPairs_of_isSome : ∀ (cs : List Char) (before : Bytes) (position : Nat),
    (∀ c ∈ cs, (value? c).isSome) → cs.length % 2 = 0 →
      readPairs before position (cs.map fun c => UInt8.ofNat c.toNat) =
        .ok (before.reverse ++ pairBytes (cs.map digitValue))
  | [], before, position, _, _ => by simp [readPairs, pairBytes]
  | [_], _, _, _, heven => by simp at heven
  | high :: low :: rest, before, position, hdigits, heven => by
    have hhigh := readDigit_of_isSome (hdigits high (by simp)) position
    have hlow := readDigit_of_isSome (hdigits low (by simp)) (position + 1)
    have hrest := readPairs_of_isSome rest (UInt8.ofNat (digitValue high * 16 + digitValue low) :: before)
      (position + 2) (fun c hc => hdigits c (by simp [hc])) (length_rest_even heven)
    simp only [List.map_cons, readPairs, hhigh, hlow, pairBytes]
    refine hrest.trans ?_
    rw [List.reverse_cons, List.append_assoc, List.singleton_append]

/-- An even number of hex digits is a byte string. -/
theorem read_eq_ok (hdigits : ∀ c ∈ cs, (value? c).isSome) (heven : cs.length % 2 = 0) :
    read cs = .ok (pairBytes (cs.map digitValue)) := by
  rw [read, utf8_of_isSome hdigits, List.length_map, if_pos heven,
    readPairs_of_isSome cs [] 0 hdigits heven]
  rfl

theorem pairBytes_append : ∀ (xs ys : List Nat), xs.length % 2 = 0 →
    pairBytes (xs ++ ys) = pairBytes xs ++ pairBytes ys
  | [], _, _ => rfl
  | [_], _, heven => by simp at heven
  | high :: low :: xs, ys, heven => by
    have hrest := pairBytes_append xs ys (length_rest_even heven)
    simp only [List.cons_append, pairBytes, hrest]

theorem length_pairBytes : ∀ digits : List Nat, (pairBytes digits).length = digits.length / 2
  | [] => rfl
  | [_] => by simp [pairBytes]
  | _ :: _ :: digits => by
    simp only [pairBytes, List.length_cons, length_pairBytes digits]
    omega

/-- Pairs of digits denote zeros alone exactly if no digit is another one. -/
theorem pairBytes_eq_replicate_iff : ∀ digits : List Nat, (∀ d ∈ digits, d < 16) → digits.length % 2 = 0 →
    (pairBytes digits = List.replicate (digits.length / 2) 0 ↔ ∀ d ∈ digits, d = 0)
  | [], _, _ => by simp [pairBytes]
  | [_], _, heven => by simp at heven
  | high :: low :: rest, hlt, heven => by
    have hhigh := hlt high (by simp)
    have hlow := hlt low (by simp)
    have hrest := pairBytes_eq_replicate_iff rest (fun d hd => hlt d (by simp [hd])) (length_rest_even heven)
    have hbyte : UInt8.ofNat (high * 16 + low) = 0 ↔ high = 0 ∧ low = 0 := by
      rw [← UInt8.toNat_inj, UInt8.toNat_ofNat_of_lt' (by simp only [UInt8.size]; omega), UInt8.toNat_zero]
      omega
    have hlength : (high :: low :: rest).length / 2 = rest.length / 2 + 1 := by
      simp only [List.length_cons]
      omega
    rw [hlength, pairBytes, List.replicate_succ, List.cons.injEq, hbyte, hrest]
    simp only [List.forall_mem_cons, and_assoc]

/-! ### Digits of bytes -/

theorem digitValue_digit {n : Nat} (h : n < 16) : digitValue (digit n) = n := by
  revert n
  decide

theorem exists_digit_of_mem_digits {bs : Bytes} (h : c ∈ digits bs) : ∃ n < 16, c = digit n := by
  obtain ⟨b, -, hb⟩ := List.mem_flatMap.1 h
  have hlt := b.toNat_lt
  rcases List.mem_cons.1 hb with rfl | hb
  · exact ⟨b.toNat / 16, by omega, rfl⟩
  · exact ⟨b.toNat % 16, by omega, List.mem_singleton.1 hb⟩

theorem length_digits (bs : Bytes) : (digits bs).length = 2 * bs.length := by
  induction bs with
  | nil => rfl
  | cons b bs ih =>
    rw [digits, List.flatMap_cons, List.length_append, ← digits, ih, List.length_cons]
    show 2 + 2 * bs.length = _
    omega

theorem pairBytes_digits (bs : Bytes) : pairBytes ((digits bs).map digitValue) = bs := by
  induction bs with
  | nil => rfl
  | cons b bs ih =>
    have hlt := b.toNat_lt
    have hhigh : digitValue (digit (b.toNat / 16)) = b.toNat / 16 := digitValue_digit (by omega)
    have hlow : digitValue (digit (b.toNat % 16)) = b.toNat % 16 := digitValue_digit (by omega)
    have hbyte : UInt8.ofNat (b.toNat / 16 * 16 + b.toNat % 16) = b := by
      rw [Nat.div_add_mod', UInt8.ofNat_toNat]
    rw [digits, List.flatMap_cons, ← digits, List.map_append, ofByte, List.map_cons, List.map_cons, hhigh, hlow]
    show UInt8.ofNat (b.toNat / 16 * 16 + b.toNat % 16) :: pairBytes ((digits bs).map digitValue) = _
    rw [hbyte, ih]

/-- No two byte strings have one text. -/
theorem ofBytes_injective : Function.Injective ofBytes := by
  intro bs bs' h
  have hdigits : digits bs = digits bs' := by
    have hlist := String.ofList_injective h
    simpa using hlist
  rw [← pairBytes_digits bs, hdigits, pairBytes_digits]

end TxTrace.Hex

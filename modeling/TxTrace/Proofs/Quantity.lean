import Mathlib.Tactic.Ring
import TxTrace.Proofs.Text.Hex
import TxTrace.Proofs.Text.Radix
import TxTrace.Quantity

/-!
The spellings of a quantity. A JSON number, decimal digits and hex digits give one number of 64 bits, hex
digits with or without `0x` one word, and digits of a number that does not fit are refused
(`quantity_of_spelling`). Words are read from the last digit to the first, and every step keeps the number
that the digits read and the digits left denote together (`readWordFrom_eq`).
-/

namespace TxTrace.Quantity

open Text (Spells readNat_of_spells valueFrom valueFrom_append valueFrom_cons)

variable {n place value d : Nat} {cs : List Char}

/-! ### Numbers of 64 bits -/

theorem mapError_readNat {base : Nat} (h : Spells base n cs) (hbase : 1 < base) (hle : base ≤ 16)
    (wrap : Text.NumeralError → FormatError) :
    (Text.readNat base (max64 + 1) cs).mapError wrap =
      if n < 2 ^ 64 then .ok n else .error (wrap .tooLarge) := by
  have hbound : max64 + 1 = 2 ^ 64 := by decide
  rw [hbound, readNat_of_spells h hbase hle (by decide)]
  split <;> rfl

theorem ofText_of_decimal (h : Spells 10 n cs) :
    ofText (String.ofList cs) = if n < 2 ^ 64 then .ok n else .error (.decimalQuantity .tooLarge) := by
  have hunmarked (rest : List Char) : cs ≠ '0' :: 'x' :: rest := by
    rintro rfl
    have hdigit := h.isSome_digit? (by decide) (by decide) (List.mem_cons_of_mem _ List.mem_cons_self)
    exact absurd hdigit (by decide)
  rw [ofText, String.toList_ofList]
  split
  · exact absurd rfl (hunmarked _)
  · exact absurd rfl (hunmarked _)
  · exact mapError_readNat h (by decide) (by decide) _

theorem ofText_of_hex (h : Spells 16 n cs) :
    ofText ("0x" ++ String.ofList cs) =
      if n < 2 ^ 64 then .ok n else .error (.hexQuantity .tooLarge) := by
  have hlist : ("0x" ++ String.ofList cs).toList = '0' :: 'x' :: cs := by simp
  rw [ofText, hlist]
  split
  · next heq => exact absurd (by simpa using heq) h.ne_nil
  · next heq =>
    obtain rfl : cs = _ := by simpa using heq
    exact mapError_readNat h (by decide) (by decide) _
  · next hunmarked => exact absurd rfl (hunmarked _)

/-! ### Words -/

/-- A digit that is read keeps the number below what its place allows, up to 64 places. -/
theorem add_shift_lt (hvalue : value < 16 ^ min place 64) (hd : d < 16) (hplace : 64 ≤ place → d = 0) :
    value + d * 16 ^ place < 16 ^ min (place + 1) 64 := by
  rcases Nat.lt_or_ge place 64 with hlt | hge
  · rw [Nat.min_eq_left (by omega)] at hvalue
    rw [Nat.min_eq_left (by omega), Nat.pow_succ]
    have hmul : d * 16 ^ place ≤ 15 * 16 ^ place := Nat.mul_le_mul_right _ (by omega)
    omega
  · rw [Nat.min_eq_right hge] at hvalue
    rw [hplace hge, Nat.zero_mul, Nat.add_zero, Nat.min_eq_right (by omega)]
    exact hvalue

theorem two_pow_le_of_ne_zero (hge : 64 ≤ place) (hd : d ≠ 0) (value more : Nat) :
    2 ^ 256 ≤ value + 16 ^ place * (more * 16 + d) := by
  calc 2 ^ 256 = 16 ^ 64 := by decide
    _ ≤ 16 ^ place := Nat.pow_le_pow_right (by decide) hge
    _ ≤ 16 ^ place * (more * 16 + d) := Nat.le_mul_of_pos_right _ (by omega)
    _ ≤ value + 16 ^ place * (more * 16 + d) := Nat.le_add_left _ _

/-- The digits read and the digits left denote one number together, and the word is that number or does not
    exist. -/
theorem readWordFrom_eq (hdigits : ∀ c ∈ cs, (Hex.value? c).isSome) (hvalue : value < 16 ^ min place 64) :
    readWordFrom place value (cs.map fun c => UInt8.ofNat c.toNat) =
      if value + 16 ^ place * valueFrom 16 0 cs.reverse < 2 ^ 256 then
        .ok (BitVec.ofNat 256 (value + 16 ^ place * valueFrom 16 0 cs.reverse))
      else .error .tooLarge := by
  induction cs generalizing place value with
  | nil =>
    have hlt : value < 2 ^ 256 := by
      calc value < 16 ^ min place 64 := hvalue
        _ ≤ 16 ^ 64 := Nat.pow_le_pow_right (by decide) (Nat.min_le_right _ _)
        _ = 2 ^ 256 := by decide
    show Except.ok _ = _
    rw [List.reverse_nil, show valueFrom 16 0 [] = 0 from rfl, Nat.mul_zero, Nat.add_zero, if_pos hlt]
  | cons c cs ih =>
    have hsome := hdigits c List.mem_cons_self
    have hchar := Hex.ofNat_toNat_of_isSome hsome
    obtain ⟨d, hd⟩ := Option.isSome_iff_exists.1 hsome
    have hlast : valueFrom 16 0 (c :: cs).reverse = valueFrom 16 0 cs.reverse * 16 + d := by
      rw [List.reverse_cons, valueFrom_append, valueFrom_cons, ← Hex.value?, hd]
      rfl
    -- An underscore would be passed over, but no digit is one.
    have hunderscore : UInt8.ofNat c.toNat ≠ 0x5F := by
      intro h
      rw [h] at hchar
      rw [← hchar] at hd
      cases hd
    rw [List.map_cons, readWordFrom, if_neg hunderscore, hchar, hd, hlast]
    dsimp only
    rw [Nat.shiftLeft_eq, Nat.pow_mul]
    by_cases hfull : 64 ≤ place ∧ d ≠ 0
    · have hge := two_pow_le_of_ne_zero hfull.1 hfull.2 value (valueFrom 16 0 cs.reverse)
      rw [if_pos hfull, if_neg (Nat.not_lt.2 hge)]
    · have hbound := add_shift_lt hvalue (Hex.value?_bounds hd).1
        fun hge => by_contra fun hne => hfull ⟨hge, hne⟩
      have htotal : value + d * 16 ^ place + 16 ^ (place + 1) * valueFrom 16 0 cs.reverse =
          value + 16 ^ place * (valueFrom 16 0 cs.reverse * 16 + d) := by
        rw [Nat.pow_succ]
        ring
      rw [if_neg hfull, ih (fun c hc => hdigits c (List.mem_cons_of_mem _ hc)) hbound, htotal]

theorem stripMark_eq_or (cs : List Char) : Hex.stripMark cs = cs ∨ 'x' ∈ cs := by
  unfold Hex.stripMark
  split
  · exact .inr (List.mem_cons_of_mem _ List.mem_cons_self)
  · exact .inl rfl

theorem word_of_hex {text : String} (h : Spells 16 n cs)
    (htext : text = String.ofList cs ∨ text = "0x" ++ String.ofList cs) :
    word text = if n < 2 ^ 256 then .ok (BitVec.ofNat 256 n) else .error (.word text .tooLarge) := by
  have hdigits : ∀ c ∈ cs, (Hex.value? c).isSome := fun c hc => h.isSome_digit? (by decide) (by decide) hc
  have hstrip : Hex.stripMark text.toList = cs := by
    rcases htext with rfl | rfl
    · rw [String.toList_ofList]
      exact (stripMark_eq_or cs).resolve_right fun hx => absurd (hdigits _ hx) (by decide)
    · simp [Hex.stripMark]
  have hread : readWordFrom 0 0 (cs.reverse.map fun c => UInt8.ofNat c.toNat) = _ :=
    readWordFrom_eq (fun c hc => hdigits c (List.mem_reverse.1 hc)) (by decide)
  rw [List.reverse_reverse, h.valueFrom_eq (by decide) (by decide), Nat.pow_zero, Nat.one_mul, Nat.zero_add]
    at hread
  rw [word, hstrip, Hex.utf8_of_isSome hdigits, ← List.map_reverse, hread]
  split <;> rfl

/-! ### Spellings -/

/-- All spellings of a quantity agree, and none wraps. -/
theorem quantity_of_spelling (n : Nat) :
    (n < 2 ^ 64 → ofJson (.int n) = .ok n) ∧
    (∀ cs, Spells 10 n cs → ofJson (.str (String.ofList cs)) =
      if n < 2 ^ 64 then .ok n else .error (.decimalQuantity .tooLarge)) ∧
    ∀ cs, Spells 16 n cs →
      (ofJson (.str ("0x" ++ String.ofList cs)) =
        if n < 2 ^ 64 then .ok n else .error (.hexQuantity .tooLarge)) ∧
      ∀ text, text = String.ofList cs ∨ text = "0x" ++ String.ofList cs →
        (∀ w : Word, w.toNat = n → word text = .ok w) ∧
        (2 ^ 256 ≤ n → word text = .error (.word text .tooLarge)) := by
  refine ⟨fun _ => rfl, fun cs h => ofText_of_decimal h, fun cs h => ⟨ofText_of_hex h, ?_⟩⟩
  intro text htext
  constructor
  · rintro w rfl
    rw [word_of_hex h htext, if_pos w.isLt, BitVec.ofNat_toNat, BitVec.setWidth_eq]
  · intro hge
    rw [word_of_hex h htext, if_neg (Nat.not_lt.2 hge)]

/-- A byte in each form, the least number too large for 64 bits, and the least too large for a word. -/
theorem quantity_of_spelling_byte_and_large :
    (ofJson (.int 255) = .ok 255 ∧ ofJson (.str "0255") = .ok 255 ∧ ofJson (.str "0x00Ff") = .ok 255 ∧
      word "00Ff" = .ok 255#256 ∧ word "0x00Ff" = .ok 255#256) ∧
    ofJson (.str "18446744073709551616") = .error (.decimalQuantity .tooLarge) ∧
    ofJson (.str "0x10000000000000000") = .error (.hexQuantity .tooLarge) ∧
    word ("0x" ++ String.ofList ('1' :: List.replicate 64 '0')) =
      .error (.word ("0x" ++ String.ofList ('1' :: List.replicate 64 '0')) .tooLarge) := by
  have hdecimal : Spells 10 255 ['0', '2', '5', '5'] := ⟨1, by decide⟩
  have hhex : Spells 16 255 ['0', '0', 'F', 'f'] := ⟨2, by decide⟩
  have hdecimal64 : Spells 10 (2 ^ 64) "18446744073709551616".toList := ⟨0, by decide⟩
  have hhex64 : Spells 16 (2 ^ 64) "10000000000000000".toList := ⟨0, by decide⟩
  have hhex256 : Spells 16 (2 ^ 256) ('1' :: List.replicate 64 '0') := ⟨0, by decide⟩
  obtain ⟨hnumber, htext, hmarked⟩ := quantity_of_spelling 255
  obtain ⟨hofJson, hword⟩ := hmarked _ hhex
  obtain ⟨-, htext64, hmarked64⟩ := quantity_of_spelling (2 ^ 64)
  obtain ⟨-, -, hmarked256⟩ := quantity_of_spelling (2 ^ 256)
  refine ⟨⟨hnumber (by decide), htext _ hdecimal, hofJson, ?_, ?_⟩, ?_, ?_, ?_⟩
  · exact (hword _ (.inl rfl)).1 255#256 rfl
  · exact (hword _ (.inr rfl)).1 255#256 rfl
  · exact (htext64 _ hdecimal64).trans (if_neg (Nat.lt_irrefl _))
  · exact (hmarked64 _ hhex64).1.trans (if_neg (Nat.lt_irrefl _))
  · exact ((hmarked256 _ hhex256).2 _ (.inr rfl)).2 (Nat.le_refl _)

end TxTrace.Quantity

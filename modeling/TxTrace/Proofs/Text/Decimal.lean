import Mathlib.Data.List.Induction
import TxTrace.Proofs.Text.Numeral

/-!
All numerals of a number. A text is read as a number of 64 bits if it is the digits of the number, behind
any zeros and with a plus sign or without (`readU64_eq_ok_iff`). Where a numeral stands in a longer text,
`isPlain` sees from the characters beside it whether it has such a sign or such zeros.
-/

namespace TxTrace.Text

/-- The text is the decimal digits of `n`. -/
def Digits (n : Nat) (cs : List Char) : Prop := cs = Nat.toDigits 10 n

/-- The text is the decimal digits of `n` behind zeros, with a plus sign or without. -/
inductive Padded (n : Nat) : List Char → Prop
  | unsigned (zeros : Nat) : Padded n (List.replicate zeros '0' ++ Nat.toDigits 10 n)
  | plus (zeros : Nat) : Padded n ('+' :: (List.replicate zeros '0' ++ Nat.toDigits 10 n))

variable {n : Nat} {cs xs ys digits : List Char} {c : Char} {inside : Bool}

theorem Digits.padded (h : Digits n cs) : Padded n cs := by
  rw [h]
  exact .unsigned 0

theorem isDigit_of_mem_zeros_toDigits {zeros : Nat}
    (hc : c ∈ List.replicate zeros '0' ++ Nat.toDigits 10 n) : c.isDigit := by
  rcases List.mem_append.1 hc with hc | hc
  · rw [List.eq_of_mem_replicate hc]
    rfl
  · exact Nat.isDigit_of_mem_toDigits (by decide) (by decide) hc

theorem Padded.ne_nil (h : Padded n cs) : cs ≠ [] := by
  cases h with
  | unsigned zeros => exact List.append_ne_nil_of_right_ne_nil _ Nat.toDigits_ne_nil
  | plus zeros => exact List.cons_ne_nil _ _

theorem Padded.isDigit_or_eq (h : Padded n cs) (hc : c ∈ cs) : c.isDigit ∨ c = '+' := by
  cases h with
  | unsigned zeros => exact .inl (isDigit_of_mem_zeros_toDigits hc)
  | plus zeros =>
    rcases List.mem_cons.1 hc with rfl | hc
    · exact .inr rfl
    · exact .inl (isDigit_of_mem_zeros_toDigits hc)

theorem Padded.exists_isDigit (h : Padded n cs) : ∃ c ∈ cs, c.isDigit := by
  obtain ⟨c, hc⟩ := List.exists_mem_of_ne_nil _ (Padded.unsigned (n := n) 0).ne_nil
  have hdigit := isDigit_of_mem_zeros_toDigits hc
  cases h with
  | unsigned zeros => exact ⟨c, List.mem_append_right _ hc, hdigit⟩
  | plus zeros => exact ⟨c, List.mem_cons_of_mem _ (List.mem_append_right _ hc), hdigit⟩

/-! ### Numerals that are read -/

theorem decimal_eq_ofDigitChars (acc : Nat) (digits : List Char) :
    decimal acc digits = Nat.ofDigitChars 10 digits acc := by
  rw [Nat.ofDigitChars_eq_foldl, decimal]
  simp only [Nat.mul_comm]

theorem decimal_zeros_toDigits (zeros n : Nat) :
    decimal 0 (List.replicate zeros '0' ++ Nat.toDigits 10 n) = n := by
  rw [decimal_eq_ofDigitChars, Nat.ofDigitChars_append, Nat.ofDigitChars_replicate_zero, Nat.mul_zero,
    Nat.ofDigitChars_ten_toDigits]

theorem exists_digitChar (hc : c.isDigit) : ∃ d < 10, c = d.digitChar := by
  have hrange := (isDigit_iff c).1 hc
  have hdigit : ∀ d < 10, Nat.digitChar d = Char.ofNat (48 + d) := by decide
  refine ⟨c.toNat - 48, by omega, ?_⟩
  rw [hdigit _ (by omega), Nat.add_sub_cancel' hrange.1, Char.ofNat_toNat]

/-- Digits are those of the number they denote, but for zeros before them. -/
theorem exists_zeros (hne : digits ≠ []) (hdigits : ∀ c ∈ digits, c.isDigit) :
    ∃ zeros, digits = List.replicate zeros '0' ++ Nat.toDigits 10 (decimal 0 digits) := by
  induction digits using List.reverseRecOn with
  | nil => exact absurd rfl hne
  | append_singleton ds c ih =>
    obtain ⟨d, hd, rfl⟩ := exists_digitChar (hdigits c (by simp))
    have hlast : decimal 0 (ds ++ [d.digitChar]) = 10 * decimal 0 ds + d := by
      rw [decimal_eq_ofDigitChars, decimal_eq_ofDigitChars, Nat.ofDigitChars_append,
        Nat.ofDigitChars_cons_digitChar_of_lt_ten hd, Nat.ofDigitChars_nil]
    rw [hlast]
    by_cases hds : ds = []
    · refine ⟨0, ?_⟩
      rw [hds, decimal, List.foldl_nil, Nat.mul_zero, Nat.zero_add, Nat.toDigits_of_lt_base hd]
      rfl
    · obtain ⟨zeros, hzeros⟩ := ih hds fun c hc => hdigits c (List.mem_append_left _ hc)
      by_cases hpos : 0 < decimal 0 ds
      · refine ⟨zeros, ?_⟩
        rw [← Nat.toDigits_append_toDigits (by decide) hpos hd, Nat.toDigits_of_lt_base hd,
          ← List.append_assoc, ← hzeros]
      · -- digits of the number zero are zeros themselves
        have hzero : decimal 0 ds = 0 := by omega
        rw [hzero, Nat.toDigits_zero] at hzeros
        refine ⟨zeros + 1, ?_⟩
        rw [hzero, Nat.mul_zero, Nat.zero_add, Nat.toDigits_of_lt_base hd, List.replicate_succ', ← hzeros]

theorem padded_iff_numeral (hminus : ∀ rest, cs ≠ '-' :: rest) : Padded n cs ↔ Numeral cs n := by
  constructor
  · intro h
    cases h with
    | unsigned zeros =>
      have hnumeral := Numeral.unsigned (Padded.unsigned (n := n) zeros).ne_nil
        fun c hc => isDigit_of_mem_zeros_toDigits hc
      rwa [decimal_zeros_toDigits] at hnumeral
    | plus zeros =>
      have hnumeral := Numeral.plus (Padded.unsigned (n := n) zeros).ne_nil
        fun c hc => isDigit_of_mem_zeros_toDigits hc
      rwa [decimal_zeros_toDigits] at hnumeral
  · intro h
    generalize hm : (n : Int) = m at h
    cases h with
    | unsigned hne hdigits =>
      obtain ⟨zeros, hzeros⟩ := exists_zeros hne hdigits
      rw [hzeros, ← Int.ofNat.inj hm]
      exact .unsigned zeros
    | plus hne hdigits =>
      obtain ⟨zeros, hzeros⟩ := exists_zeros hne hdigits
      rw [hzeros, ← Int.ofNat.inj hm]
      exact .plus zeros
    | minus => exact absurd rfl (hminus _)

theorem readU64_eq_ok_iff : readU64 cs = .ok n ↔ Padded n cs ∧ n ≤ max64 := by
  by_cases hminus : ∃ rest, cs = '-' :: rest
  · obtain ⟨rest, rfl⟩ := hminus
    refine iff_of_false ?_ fun h => ?_
    · have hread : readU64 ('-' :: rest) = .error .invalidDigit := rfl
      rw [hread]
      exact fun h => nomatch h
    · rcases h.1.isDigit_or_eq List.mem_cons_self with h | h
      · exact absurd h (by decide)
      · exact absurd h (by decide)
  · have hminus' : ∀ rest, cs ≠ '-' :: rest := fun rest hrest => hminus ⟨rest, hrest⟩
    rw [readU64, readNat_eq_ok_iff (Nat.succ_pos _) hminus', padded_iff_numeral hminus', Nat.lt_succ_iff]

/-! ### Numerals without sign and zeros -/

def startsWithDigit : List Char → Bool
  | [] => false
  | c :: _ => c.isDigit

/-- Whether the text has no plus sign, and no zero that begins a numeral of several digits. A digit that
    stands `inside` a numeral follows one. -/
def isPlain (inside : Bool) : List Char → Bool
  | [] => true
  | c :: cs => c != '+' && (inside || c != '0' || !startsWithDigit cs) && isPlain c.isDigit cs

/-- What is no digit separates numerals. -/
theorem isPlain_append_cons (hc : c.isDigit = false) :
    isPlain inside (xs ++ c :: ys) = (isPlain inside xs && isPlain false (c :: ys)) := by
  induction xs generalizing inside with
  | nil =>
    have hzero : c ≠ '0' := by
      rintro rfl
      cases hc
    have hne : (c != '0') = true := bne_iff_ne.2 hzero
    simp [isPlain, hne]
  | cons x xs ih =>
    have hstarts : startsWithDigit (xs ++ c :: ys) = startsWithDigit xs := by
      cases xs with
      | nil => exact hc
      | cons y ys => rfl
    rw [List.cons_append, isPlain, isPlain, ih, hstarts, Bool.and_assoc, Bool.and_assoc, Bool.and_assoc]

theorem isPlain_true_of_isDigit (hdigits : ∀ c ∈ digits, c.isDigit) : isPlain true digits = true := by
  induction digits with
  | nil => rfl
  | cons c cs ih =>
    have hc := hdigits c List.mem_cons_self
    have hplus : c ≠ '+' := by
      rintro rfl
      cases hc
    rw [isPlain, hc, ih fun c hc => hdigits c (List.mem_cons_of_mem _ hc)]
    simp [hplus]

theorem exists_toDigits_eq_cons (hn : 0 < n) : ∃ c cs, Nat.toDigits 10 n = c :: cs ∧ c ≠ '0' := by
  induction n using Nat.strongRecOn with
  | _ n ih =>
    by_cases hlt : n < 10
    · have hne : ∀ d < 10, 0 < d → Nat.digitChar d ≠ '0' := by decide
      exact ⟨_, _, Nat.toDigits_of_lt_base hlt, hne n hlt hn⟩
    · obtain ⟨c, cs, hcs, hc⟩ := ih (n / 10) (by omega) (by omega)
      exact ⟨c, _, by rw [Nat.toDigits_of_base_le (by decide) (by omega), hcs]; rfl, hc⟩

theorem isPlain_toDigits (n : Nat) : isPlain false (Nat.toDigits 10 n) = true := by
  rcases Nat.eq_zero_or_pos n with rfl | hpos
  · rfl
  · obtain ⟨c, cs, hcs, hzero⟩ := exists_toDigits_eq_cons hpos
    have hdigits : ∀ c' ∈ c :: cs, c'.isDigit := by
      intro c' hc'
      rw [← hcs] at hc'
      exact Nat.isDigit_of_mem_toDigits (by decide) (by decide) hc'
    have hc := hdigits c List.mem_cons_self
    have hplus : c ≠ '+' := by
      rintro rfl
      cases hc
    rw [hcs, isPlain, hc, isPlain_true_of_isDigit fun c hc => hdigits c (List.mem_cons_of_mem _ hc)]
    simp [hplus, hzero]

/-- A numeral is plain if it is nothing but the digits of its number. -/
theorem Padded.isPlain_iff (h : Padded n cs) : isPlain false cs = true ↔ Digits n cs := by
  constructor
  · intro hplain
    cases h with
    | plus zeros => cases hplain
    | unsigned zeros =>
      cases zeros with
      | zero => rfl
      | succ zeros =>
        have hstarts : startsWithDigit (List.replicate zeros '0' ++ Nat.toDigits 10 n) = true := by
          obtain ⟨c, cs, hcs⟩ := List.exists_cons_of_ne_nil (Padded.unsigned (n := n) zeros).ne_nil
          have hc : c ∈ List.replicate zeros '0' ++ Nat.toDigits 10 n := by
            rw [hcs]
            exact List.mem_cons_self
          rw [hcs]
          exact isDigit_of_mem_zeros_toDigits hc
        rw [List.replicate_succ, List.cons_append, isPlain, hstarts] at hplain
        cases hplain
  · intro hdigits
    rw [hdigits]
    exact isPlain_toDigits n

/-! ### Numbers by their texts -/

theorem toString_injective : Function.Injective (toString : Nat → String) := by
  intro m n h
  rw [Nat.toString_eq_ofList_toDigits, Nat.toString_eq_ofList_toDigits] at h
  have hvalue := congrArg (Nat.ofDigitChars 10 · 0) (String.ofList_injective h)
  rwa [Nat.ofDigitChars_toDigits (by decide) (by decide), Nat.ofDigitChars_toDigits (by decide) (by decide)]
    at hvalue

theorem toString_ne_minus (m : Nat) (s : String) : toString m ≠ "-" ++ s := by
  intro h
  have hdigits : '-' ∈ Nat.toDigits 10 m := by
    have hlist := congrArg String.toList h
    rw [Nat.toString_eq_ofList_toDigits, String.toList_ofList, String.toList_append] at hlist
    rw [hlist]
    exact List.mem_cons_self
  exact absurd (Nat.isDigit_of_mem_toDigits (by decide) (by decide) hdigits) (by decide)

/-- Negative integers have the digits of positive ones behind a minus sign. -/
theorem toString_int_injective : Function.Injective (toString : Int → String) := by
  intro a b h
  cases a with
  | ofNat m =>
    cases b with
    | ofNat n => exact congrArg Int.ofNat (toString_injective h)
    | negSucc n => exact absurd h (toString_ne_minus m _)
  | negSucc m =>
    cases b with
    | ofNat n => exact absurd h.symm (toString_ne_minus n _)
    | negSucc n =>
      have hdigits : toString (m + 1) = toString (n + 1) := (String.append_right_inj "-").1 h
      exact congrArg Int.negSucc (Nat.succ.inj (toString_injective hdigits))

end TxTrace.Text

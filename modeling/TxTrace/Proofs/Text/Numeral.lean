import Mathlib.Algebra.Ring.Int.Defs
import TxTrace.Text.Numeral

/-!
What numerals denote. `readInt_eq_ok_iff` says that a text is read as a number exactly when it is a
`Numeral` of that number and the number is in range.
-/

namespace TxTrace.Text

/-- The number that decimal digits denote behind those of `acc`. -/
def decimal (acc : Nat) (digits : List Char) : Nat :=
  digits.foldl (fun n c => n * 10 + (c.toNat - '0'.toNat)) acc

/-- A sign or none, then at least one decimal digit. -/
inductive Numeral : List Char → Int → Prop
  | unsigned {digits : List Char} (hne : digits ≠ []) (hdigits : ∀ c ∈ digits, c.isDigit) :
      Numeral digits (decimal 0 digits)
  | plus {digits : List Char} (hne : digits ≠ []) (hdigits : ∀ c ∈ digits, c.isDigit) :
      Numeral ('+' :: digits) (decimal 0 digits)
  | minus {digits : List Char} (hne : digits ≠ []) (hdigits : ∀ c ∈ digits, c.isDigit) :
      Numeral ('-' :: digits) (-decimal 0 digits)

theorem isDigit_iff (c : Char) : c.isDigit ↔ 48 ≤ c.toNat ∧ c.toNat ≤ 57 := by
  simp only [Char.isDigit, Bool.and_eq_true, decide_eq_true_eq, UInt32.le_iff_toNat_le, ge_iff_le]
  rfl

theorem digit?_of_isDigit {c : Char} (h : c.isDigit) : digit? 10 c = some (c.toNat - '0'.toNat) := by
  have hrange := (isDigit_iff c).1 h
  have hlt : c.toNat - 48 < 10 := by omega
  simp only [digit?, if_pos hrange, if_pos hlt]
  rfl

theorem digit?_of_not_isDigit {c : Char} (h : ¬ c.isDigit) : digit? 10 c = none := by
  have hrange := mt (isDigit_iff c).2 h
  have hle : ¬ (if 97 ≤ c.toNat ∧ c.toNat ≤ 122 then c.toNat - 87
      else if 65 ≤ c.toNat ∧ c.toNat ≤ 90 then c.toNat - 55 else 10) < 10 := by
    split
    · omega
    · split <;> omega
  simp only [digit?, if_neg hrange, if_neg hle]

theorem le_decimal (acc : Nat) (digits : List Char) : acc ≤ decimal acc digits := by
  induction digits generalizing acc with
  | nil => exact Nat.le_refl _
  | cons c cs ih =>
    have hle : acc * 10 + (c.toNat - '0'.toNat) ≤ decimal acc (c :: cs) := ih _
    omega

/-- No number on the way exceeds the last one, so stopping at the bound stops at the end or not at
    all. -/
theorem readDigits_eq_ok_iff {bound acc n : Nat} {cs : List Char} (hacc : acc < bound) :
    readDigits 10 bound acc cs = .ok n ↔
      (∀ c ∈ cs, c.isDigit) ∧ decimal acc cs = n ∧ n < bound := by
  induction cs generalizing acc with
  | nil =>
    constructor
    · intro h
      obtain rfl := Except.ok.inj h
      exact ⟨by simp, rfl, hacc⟩
    · rintro ⟨_, rfl, _⟩
      rfl
  | cons c cs ih =>
    by_cases hdigit : c.isDigit
    · rw [readDigits, digit?_of_isDigit hdigit]
      dsimp only
      split
      · next hlt =>
        rw [ih hlt]
        simp only [List.forall_mem_cons, hdigit, true_and]
        rfl
      · next hge =>
        refine iff_of_false (by simp) ?_
        rintro ⟨_, rfl, hlt⟩
        have hle : acc * 10 + (c.toNat - '0'.toNat) ≤ decimal acc (c :: cs) := le_decimal _ cs
        omega
    · rw [readDigits, digit?_of_not_isDigit hdigit]
      refine iff_of_false (by simp) ?_
      rintro ⟨hdigits, _⟩
      exact hdigit (hdigits c List.mem_cons_self)

theorem Numeral.ne_nil {cs : List Char} {n : Int} (h : Numeral cs n) : cs ≠ [] := by
  cases h with
  | unsigned hne => exact hne
  | plus | minus => exact List.cons_ne_nil _ _

theorem numeral_plus_iff {cs : List Char} {n : Int} :
    Numeral ('+' :: cs) n ↔ cs ≠ [] ∧ (∀ c ∈ cs, c.isDigit) ∧ n = decimal 0 cs := by
  constructor
  · intro h
    cases h with
    | unsigned _ hdigits => exact absurd (hdigits '+' List.mem_cons_self) (by decide)
    | plus hne hdigits => exact ⟨hne, hdigits, rfl⟩
  · rintro ⟨hne, hdigits, rfl⟩
    exact .plus hne hdigits

theorem numeral_minus_iff {cs : List Char} {n : Int} :
    Numeral ('-' :: cs) n ↔ cs ≠ [] ∧ (∀ c ∈ cs, c.isDigit) ∧ n = -decimal 0 cs := by
  constructor
  · intro h
    cases h with
    | unsigned _ hdigits => exact absurd (hdigits '-' List.mem_cons_self) (by decide)
    | minus hne hdigits => exact ⟨hne, hdigits, rfl⟩
  · rintro ⟨hne, hdigits, rfl⟩
    exact .minus hne hdigits

theorem numeral_unsigned_iff {cs : List Char} {n : Int} (hplus : ∀ rest, cs ≠ '+' :: rest)
    (hminus : ∀ rest, cs ≠ '-' :: rest) :
    Numeral cs n ↔ cs ≠ [] ∧ (∀ c ∈ cs, c.isDigit) ∧ n = decimal 0 cs := by
  constructor
  · intro h
    cases h with
    | unsigned hne hdigits => exact ⟨hne, hdigits, rfl⟩
    | plus => exact absurd rfl (hplus _)
    | minus => exact absurd rfl (hminus _)
  · rintro ⟨hne, hdigits, rfl⟩
    exact .unsigned hne hdigits

/-- Without a minus sign, all numerals are read that are small enough. -/
theorem readNat_eq_ok_iff {bound n : Nat} {cs : List Char} (hbound : 0 < bound)
    (hminus : ∀ rest, cs ≠ '-' :: rest) :
    readNat 10 bound cs = .ok n ↔ Numeral cs n ∧ n < bound := by
  unfold readNat
  split
  · exact iff_of_false (by simp) fun h => h.1.ne_nil rfl
  · refine iff_of_false (by simp) ?_
    rw [numeral_plus_iff]
    rintro ⟨⟨hne, _⟩, _⟩
    exact hne rfl
  · next cs hne =>
    rw [readDigits_eq_ok_iff hbound, numeral_plus_iff]
    constructor
    · rintro ⟨hdigits, rfl, hlt⟩
      exact ⟨⟨fun hnil => hne (by rw [hnil]), hdigits, rfl⟩, hlt⟩
    · rintro ⟨⟨_, hdigits, heq⟩, hlt⟩
      exact ⟨hdigits, (Int.ofNat.inj heq).symm, hlt⟩
  · next hne _ hplus =>
    rw [readDigits_eq_ok_iff hbound, numeral_unsigned_iff hplus hminus]
    constructor
    · rintro ⟨hdigits, rfl, hlt⟩
      exact ⟨⟨hne, hdigits, rfl⟩, hlt⟩
    · rintro ⟨⟨_, hdigits, heq⟩, hlt⟩
      exact ⟨hdigits, (Int.ofNat.inj heq).symm, hlt⟩

theorem readInt_eq_ok_iff {bound : Nat} {n : Int} {cs : List Char} (hbound : 0 < bound) :
    readInt bound cs = .ok n ↔ Numeral cs n ∧ -(bound : Int) ≤ n ∧ n < bound := by
  unfold readInt
  split
  · refine iff_of_false (by simp) ?_
    rw [numeral_minus_iff]
    rintro ⟨⟨hne, _⟩, _⟩
    exact hne rfl
  · next cs hne =>
    have hread (m : Nat) : readDigits 10 (bound + 1) 0 cs = .ok m ↔ _ :=
      readDigits_eq_ok_iff (Nat.succ_pos bound)
    rw [numeral_minus_iff]
    constructor
    · intro h
      split at h
      · next m hm =>
        obtain ⟨hdigits, rfl, hlt⟩ := (hread m).1 hm
        obtain rfl := Except.ok.inj h
        exact ⟨⟨fun hnil => hne (by rw [hnil]), hdigits, rfl⟩, by omega, by omega⟩
      · cases h
      · cases h
    · rintro ⟨⟨_, hdigits, rfl⟩, hle, _⟩
      rw [(hread (decimal 0 cs)).2 ⟨hdigits, rfl, by omega⟩]
  · next _ hminus =>
    have hread (m : Nat) : readNat 10 bound cs = .ok m ↔ _ := readNat_eq_ok_iff hbound hminus
    constructor
    · intro h
      cases hm : readNat 10 bound cs with
      | error => simp [hm, Except.map] at h
      | ok m =>
        obtain ⟨hnumeral, hlt⟩ := (hread m).1 hm
        rw [hm] at h
        obtain rfl := Except.ok.inj h
        have hnonneg : (0 : Int) ≤ Int.ofNat m := Int.natCast_nonneg m
        exact ⟨hnumeral, by omega, Int.ofNat_lt.2 hlt⟩
    · rintro ⟨hnumeral, _, hlt⟩
      obtain ⟨m, rfl⟩ : ∃ m : Nat, n = m := by
        cases hnumeral with
        | unsigned | plus => exact ⟨_, rfl⟩
        | minus => exact absurd rfl (hminus _)
      rw [(hread m).2 ⟨hnumeral, Int.ofNat_lt.1 hlt⟩]
      rfl

/-- A numeral of a signed number of 64 bits. -/
def Numeral64 (cs : List Char) (n : Int) : Prop := Numeral cs n ∧ -2 ^ 63 ≤ n ∧ n < 2 ^ 63

theorem readI64_eq_ok_iff {n : Int} {cs : List Char} : readI64 cs = .ok n ↔ Numeral64 cs n := by
  have hbound : ((max64 / 2 + 1 : Nat) : Int) = 2 ^ 63 := by decide
  rw [readI64, readInt_eq_ok_iff (Nat.succ_pos _), hbound, Numeral64]

end TxTrace.Text

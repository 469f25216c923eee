import TxTrace.Text.Numeral

/-!
Numerals to any base up to 16. A numeral may have digits of either case and begin with zeros (`Spells`). It
is read as its number if that is below the bound, and refused as too large if not (`readNat_of_spells`): no
number on the way is larger than the last.
-/

namespace TxTrace.Text

/-- The text is the digits of `n` to a base, of either case and behind any zeros. -/
def Spells (base n : Nat) (cs : List Char) : Prop :=
  ∃ zeros, cs.map Char.toLower = List.replicate zeros '0' ++ Nat.toDigits base n

/-- The number that digits denote behind those of `acc`. What is no digit counts as zero. -/
def valueFrom (base acc : Nat) (cs : List Char) : Nat :=
  cs.foldl (fun n c => n * base + (digit? base c).getD 0) acc

variable {base bound n acc d : Nat} {c : Char} {cs : List Char}

/-! ### Digits -/

theorem toNat_toLower (c : Char) :
    c.toLower.toNat = if 65 ≤ c.toNat ∧ c.toNat ≤ 90 then c.toNat + 32 else c.toNat := by
  have hupper : (c.val ≥ 'A'.val ∧ c.val ≤ 'Z'.val) ↔ (65 ≤ c.toNat ∧ c.toNat ≤ 90) := by
    simp only [ge_iff_le, UInt32.le_iff_toNat_le]
    rfl
  unfold Char.toLower
  split
  · next h =>
    have hrange := hupper.1 h
    rw [if_pos hrange]
    show (c.val + 32).toNat = _
    rw [UInt32.toNat_add]
    show (c.toNat + 32) % 2 ^ 32 = _
    omega
  · next h => rw [if_neg (mt hupper.2 h)]

theorem digit?_toLower (base : Nat) (c : Char) : digit? base c.toLower = digit? base c := by
  have hrange := toNat_toLower c
  unfold digit?
  dsimp only
  split at hrange
  · next hupper =>
    have hlower : ¬ (48 ≤ c.toLower.toNat ∧ c.toLower.toNat ≤ 57) := by omega
    have hletter : 97 ≤ c.toLower.toNat ∧ c.toLower.toNat ≤ 122 := by omega
    have hdigit : ¬ (48 ≤ c.toNat ∧ c.toNat ≤ 57) := by omega
    have hsmall : ¬ (97 ≤ c.toNat ∧ c.toNat ≤ 122) := by omega
    have hvalue : c.toLower.toNat - 87 = c.toNat - 55 := by omega
    rw [if_neg hlower, if_pos hletter, if_neg hdigit, if_neg hsmall, if_pos hupper, hvalue]
  · rw [hrange]

theorem digit?_digitChar (hbase : base ≤ 16) (hd : d < base) : digit? base d.digitChar = some d := by
  have hdigits : ∀ d < 16, ∀ base ≤ 16, d < base → digit? base d.digitChar = some d := by decide
  exact hdigits d (by omega) base hbase hd

/-! ### Numbers -/

theorem valueFrom_cons (base acc : Nat) (c : Char) (cs : List Char) :
    valueFrom base acc (c :: cs) = valueFrom base (acc * base + (digit? base c).getD 0) cs := rfl

theorem valueFrom_append (base acc : Nat) (cs ds : List Char) :
    valueFrom base acc (cs ++ ds) = valueFrom base (valueFrom base acc cs) ds := List.foldl_append

theorem le_valueFrom (hbase : 0 < base) (acc : Nat) (cs : List Char) : acc ≤ valueFrom base acc cs := by
  induction cs generalizing acc with
  | nil => exact Nat.le_refl _
  | cons c cs ih =>
    calc acc ≤ acc * base := Nat.le_mul_of_pos_right acc hbase
      _ ≤ acc * base + (digit? base c).getD 0 := Nat.le_add_right _ _
      _ ≤ valueFrom base acc (c :: cs) := ih _

theorem valueFrom_toLower (base acc : Nat) (cs : List Char) :
    valueFrom base acc (cs.map Char.toLower) = valueFrom base acc cs := by
  rw [valueFrom, List.foldl_map]
  simp only [digit?_toLower, valueFrom]

theorem valueFrom_zeros (hbase : 0 < base) (zeros : Nat) :
    valueFrom base 0 (List.replicate zeros '0') = 0 := by
  have hzero : digit? base '0' = some 0 := by simp [digit?, hbase]
  induction zeros with
  | zero => rfl
  | succ zeros ih => rw [List.replicate_succ, valueFrom_cons, hzero, Option.getD_some, Nat.zero_mul, ih]

/-- Digits of numbers digit by digit, the last one last. -/
theorem toDigits_induction {motive : Nat → List Char → Prop} (hbase : 1 < base)
    (hdigit : ∀ d < base, motive d [d.digitChar])
    (hlast : ∀ m, ∀ d < base, motive m (Nat.toDigits base m) →
      motive (m * base + d) (Nat.toDigits base m ++ [d.digitChar]))
    (n : Nat) : motive n (Nat.toDigits base n) := by
  induction n using Nat.strongRecOn with
  | ind n ih =>
    rcases Nat.lt_or_ge n base with hlt | hge
    · rw [Nat.toDigits_of_lt_base hlt]
      exact hdigit n hlt
    · have hquot : n / base < n := Nat.div_lt_self (by omega) hbase
      have hnext := hlast (n / base) (n % base) (Nat.mod_lt _ (by omega)) (ih _ hquot)
      rw [Nat.toDigits_of_base_le hbase hge]
      rwa [Nat.div_add_mod'] at hnext

theorem valueFrom_toDigits (hbase : 1 < base) (hle : base ≤ 16) (n : Nat) :
    valueFrom base 0 (Nat.toDigits base n) = n := by
  refine toDigits_induction (motive := fun n cs => valueFrom base 0 cs = n) hbase
    (fun d hd => ?_) (fun m d hd hm => ?_) n
  · rw [valueFrom_cons, digit?_digitChar hle hd, Option.getD_some, Nat.zero_mul, Nat.zero_add]
    rfl
  · rw [valueFrom_append, hm, valueFrom_cons, digit?_digitChar hle hd, Option.getD_some]
    rfl

/-! ### Spellings -/

theorem isSome_digit?_of_mem_toDigits (hbase : 1 < base) (hle : base ≤ 16) (n : Nat) :
    ∀ c ∈ Nat.toDigits base n, (digit? base c).isSome := by
  refine toDigits_induction (motive := fun _ cs => ∀ c ∈ cs, (digit? base c).isSome) hbase
    (fun d hd => ?_) (fun m d hd hm => ?_) n
  · simp [digit?_digitChar hle hd]
  · rw [List.forall_mem_append]
    exact ⟨hm, by simp [digit?_digitChar hle hd]⟩

namespace Spells

variable (h : Spells base n cs) (hbase : 1 < base) (hle : base ≤ 16)
include h

theorem ne_nil : cs ≠ [] := by
  obtain ⟨zeros, hzeros⟩ := h
  rintro rfl
  exact List.append_ne_nil_of_right_ne_nil _ Nat.toDigits_ne_nil hzeros.symm

include hbase hle

theorem isSome_digit? (hc : c ∈ cs) : (digit? base c).isSome := by
  obtain ⟨zeros, hzeros⟩ := h
  have hmem : c.toLower ∈ List.replicate zeros '0' ++ Nat.toDigits base n :=
    hzeros ▸ List.mem_map_of_mem hc
  rw [← digit?_toLower]
  rcases List.mem_append.1 hmem with hmem | hmem
  · have hpos : 0 < base := by omega
    rw [List.eq_of_mem_replicate hmem]
    simp [digit?, hpos]
  · exact isSome_digit?_of_mem_toDigits hbase hle n _ hmem

theorem valueFrom_eq : valueFrom base 0 cs = n := by
  obtain ⟨zeros, hzeros⟩ := h
  rw [← valueFrom_toLower, hzeros, valueFrom_append, valueFrom_zeros (by omega),
    valueFrom_toDigits hbase hle]

end Spells

/-! ### Reading -/

/-- Reading stops at the bound, and no number on the way is larger than the last. -/
theorem readDigits_eq (hbase : 0 < base) (hacc : acc < bound) (hdigits : ∀ c ∈ cs, (digit? base c).isSome) :
    readDigits base bound acc cs =
      if valueFrom base acc cs < bound then .ok (valueFrom base acc cs) else .error .tooLarge := by
  induction cs generalizing acc with
  | nil => exact (if_pos hacc).symm
  | cons c cs ih =>
    obtain ⟨d, hd⟩ := Option.isSome_iff_exists.1 (hdigits c List.mem_cons_self)
    have hvalue : valueFrom base acc (c :: cs) = valueFrom base (acc * base + d) cs := by
      rw [valueFrom_cons, hd, Option.getD_some]
    rw [readDigits, hd, hvalue]
    dsimp only
    by_cases hlt : acc * base + d < bound
    · rw [if_pos hlt, ih hlt fun c hc => hdigits c (List.mem_cons_of_mem _ hc)]
    · have hge := le_valueFrom hbase (acc * base + d) cs
      rw [if_neg hlt, if_neg (by omega)]

/-- The digits of a number are read as the number, or refused if it is out of range. -/
theorem readNat_of_spells (h : Spells base n cs) (hbase : 1 < base) (hle : base ≤ 16) (hbound : 0 < bound) :
    readNat base bound cs = if n < bound then .ok n else .error .tooLarge := by
  have hplus : digit? base '+' = none := by simp [digit?]
  have hread : readNat base bound cs = readDigits base bound 0 cs := by
    unfold readNat
    split
    · exact absurd rfl h.ne_nil
    · exact absurd (h.isSome_digit? hbase hle List.mem_cons_self) (by simp [hplus])
    · exact absurd (h.isSome_digit? hbase hle List.mem_cons_self) (by simp [hplus])
    · rfl
  rw [hread, readDigits_eq (by omega) hbound fun c hc => h.isSome_digit? hbase hle hc,
    h.valueFrom_eq hbase hle]

end TxTrace.Text

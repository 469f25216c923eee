import Mathlib.Data.Fin.Basic
import TxTrace.Machine.Size
import TxTrace.Result

/-!
What operations on sizes of 64 bits give, in numbers, and when they have no fault. `Follows` relates a
computation on the machine to one on numbers: it has no fault, and it comes out alike. `OverflowsWhen` says of
one that may overflow when it does.
-/

namespace TxTrace.Machine

variable {ε : Type}

/-! ### Their numbers -/

variable {a b : UInt64} {bs : Bytes}

theorem toNat_ofNat {n : Nat} (hn : n ≤ max64) : (UInt64.ofNat n).toNat = n := by
  have hlt : n < 2 ^ 64 := Nat.lt_of_le_of_lt hn (by decide)
  rw [UInt64.toNat_ofNat', Nat.mod_eq_of_lt hlt]

theorem toNat_length (hbs : bs.length ≤ max64) : (length bs).toNat = bs.length := toNat_ofNat hbs

theorem toNat_le (a : UInt64) : a.toNat ≤ max64 := Nat.le_of_lt_succ a.toNat_lt

theorem toNat_add (h : a.toNat + b.toNat ≤ max64) : (a + b).toNat = a.toNat + b.toNat := by
  have hlt : a.toNat + b.toNat < 2 ^ 64 := Nat.lt_of_le_of_lt h (by decide)
  rw [UInt64.toNat_add, Nat.mod_eq_of_lt hlt]

theorem add_eq_ok (h : a.toNat + b.toNat ≤ max64) : add (ε := ε) a b = .ok (a + b) := if_pos h

theorem sub_eq_ok (h : b.toNat ≤ a.toNat) : sub (ε := ε) a b = .ok (a - b) :=
  if_pos (UInt64.le_iff_toNat_le.2 h)

theorem div_eq_ok (h : b.toNat ≠ 0) : div (ε := ε) a b = .ok (a / b) := if_neg h

theorem take_eq_ok (h : a.toNat ≤ bs.length) : take (ε := ε) bs a = .ok (bs.take a.toNat) := if_pos h

theorem copy_eq_ok (h : bs.length = a.toNat) : copy (ε := ε) a bs = .ok bs := if_pos h

theorem toNat_mul (h : a.toNat * b.toNat ≤ max64) : (a * b).toNat = a.toNat * b.toNat := by
  have hlt : a.toNat * b.toNat < 2 ^ 64 := Nat.lt_of_le_of_lt h (by decide)
  rw [UInt64.toNat_mul, Nat.mod_eq_of_lt hlt]

theorem toNat_addSat (a b : UInt64) : (addSat a b).toNat = min (a.toNat + b.toNat) max64 := by
  unfold addSat add?
  split
  · next h => rw [Option.getD_some, toNat_add h, Nat.min_eq_left h]
  · next h =>
    rw [Option.getD_none, last, toNat_ofNat (Nat.le_refl _)]
    omega

theorem toNat_mulSat (a b : UInt64) : (mulSat a b).toNat = min (a.toNat * b.toNat) max64 := by
  unfold mulSat mul?
  split
  · next h => rw [Option.getD_some, toNat_mul h, Nat.min_eq_left h]
  · next h =>
    rw [Option.getD_none, last, toNat_ofNat (Nat.le_refl _)]
    omega

theorem toNat_subSat (a b : UInt64) : (subSat a b).toNat = a.toNat - b.toNat := by
  unfold subSat
  split
  · next h => exact UInt64.toNat_sub_of_le a b h
  · next h =>
    rw [UInt64.le_iff_toNat_le] at h
    rw [UInt64.toNat_zero]
    omega

/-- A range is a slice: it starts where it ends less its length. -/
theorem bind_add?_get? (hbs : bs.length ≤ max64) (pos len : UInt64) :
    ((add? pos len).bind fun stop => get? bs pos stop) = bs.slice? pos.toNat len.toNat := by
  unfold add? Bytes.slice?
  by_cases h : pos.toNat + len.toNat ≤ bs.length
  · have hle : pos.toNat + len.toNat ≤ max64 := Nat.le_trans h hbs
    have hrange : pos ≤ pos + len ∧ pos + len ≤ length bs := by
      rw [UInt64.le_iff_toNat_le, UInt64.le_iff_toNat_le, toNat_add hle, toNat_length hbs]
      omega
    rw [if_pos hle, if_pos h, Option.bind_some, get?, if_pos hrange, toNat_add hle,
      Nat.add_sub_cancel_left]
  · rw [if_neg h]
    split
    · next hle =>
      have hrange : ¬ (pos ≤ pos + len ∧ pos + len ≤ length bs) := by
        rw [UInt64.le_iff_toNat_le, UInt64.le_iff_toNat_le, toNat_add hle, toNat_length hbs]
        omega
      rw [Option.bind_some, get?, if_neg hrange]
    · rfl

/-- Any number of bytes can be taken of bytes, up to all. -/
theorem take_min_eq_ok (h : bs.length = b.toNat) (n : UInt64) :
    take (ε := ε) bs (min n b) = .ok (bs.take n.toNat) := by
  have hmin : (min n b).toNat = min n.toNat bs.length := by
    rw [UInt64.toNat_min, h]
  rw [take_eq_ok (by omega), hmin, ← List.take_eq_take_min]

/-! ### Computations without a fault -/

/-- The computation `m` on the machine has no fault. It comes out as `r` does, with the same error or with
    results that `R` relates. -/
inductive Follows {α β : Type} (R : α → β → Prop) : Except (Halt ε) α → Except ε β → Prop
  | ok {a : α} {b : β} (h : R a b) : Follows R (.ok a) (.ok b)
  | error (e : ε) : Follows R (.error (.error e)) (.error e)

namespace Follows

variable {α β γ δ : Type} {R : α → β → Prop} {S : γ → δ → Prop} {m : Except (Halt ε) α}
  {r : Except ε β} {f : α → Except (Halt ε) γ} {g : β → Except ε δ}

/-- What comes next may rely on what came out. -/
theorem bind (h : Follows R m r) (hf : ∀ a b, r = .ok b → R a b → Follows S (f a) (g b)) :
    Follows S (m >>= f) (r >>= g) := by
  cases h with
  | ok hab => exact hf _ _ rfl hab
  | error e => exact .error e

theorem bind_eq {r : Except ε α} {g : α → Except ε δ} (h : Follows Eq m r)
    (hf : ∀ a, Follows S (f a) (g a)) : Follows S (m >>= f) (r >>= g) :=
  h.bind fun a _ _ hab => hab ▸ hf a

theorem map_right {c : β → δ} {T : α → δ → Prop} (h : Follows R m r) (hT : ∀ a b, R a b → T a (c b)) :
    Follows T m (r.map c) := by
  cases h with
  | ok hab => exact .ok (hT _ _ hab)
  | error e => exact .error e

theorem eq_mapError {r : Except ε α} (h : Follows Eq m r) : m = r.mapError .error := by
  cases h with
  | ok hab => rw [hab]; rfl
  | error e => rfl

end Follows

/-! ### Computations that may overflow -/

/-- The computation `m` on the machine overflows if `P` holds. Else it comes out as `r` does. -/
structure OverflowsWhen {α : Type} (P : Prop) (m : Except (Halt ε) α) (r : Except ε α) : Prop where
  fault : P → m = .error (.fault .overflow)
  eq : ¬ P → m = r.mapError .error

namespace OverflowsWhen

variable {α β : Type} {P P' : Prop} {m : Except (Halt ε) α} {r : Except ε α}

theorem of_eq (hP : ¬ P) (h : m = r.mapError .error) : OverflowsWhen P m r :=
  ⟨fun hp => absurd hp hP, fun _ => h⟩

theorem congr (h : OverflowsWhen P m r) (hP : P ↔ P') : OverflowsWhen P' m r :=
  ⟨fun hp => h.fault (hP.2 hp), fun hp => h.eq (mt hP.1 hp)⟩

/-- What comes next may overflow too, if it is reached. -/
theorem bind {Q : α → Prop} {f : α → Except (Halt ε) β} {g : α → Except ε β} (h : OverflowsWhen P m r)
    (hf : ∀ a, r = .ok a → OverflowsWhen (Q a) (f a) (g a)) :
    OverflowsWhen (P ∨ ∃ a, r = .ok a ∧ Q a) (m >>= f) (r >>= g) := by
  by_cases hP : P
  · refine ⟨fun _ => ?_, fun hnot => absurd (.inl hP) hnot⟩
    rw [h.fault hP]
    rfl
  · have hm := h.eq hP
    cases r with
    | error e =>
      refine of_eq ?_ (by rw [hm]; rfl)
      rintro (hp | ⟨a, ha, -⟩)
      · exact hP hp
      · cases ha
    | ok a =>
      have hstep : m >>= f = f a := by rw [hm]; rfl
      rw [hstep, ok_bind]
      refine (hf a rfl).congr ⟨fun hq => .inr ⟨a, rfl, hq⟩, ?_⟩
      rintro (hp | ⟨a', ha', hq⟩)
      · exact absurd hp hP
      · rwa [Except.ok.inj ha']

theorem bind_ok {Q : Prop} {a : α} {f : α → Except (Halt ε) β} {s : Except ε β}
    (h : OverflowsWhen P m (.ok a)) (hf : OverflowsWhen Q (f a) s) :
    OverflowsWhen (P ∨ Q) (m >>= f) s := by
  have hbind := h.bind (g := fun _ => s) (Q := fun _ => Q) fun a' ha' => by
    rwa [← Except.ok.inj ha']
  exact hbind.congr (or_congr_right ⟨fun ⟨_, _, hq⟩ => hq, fun hq => ⟨a, rfl, hq⟩⟩)

/-- What comes next overflows nowhere else. -/
theorem bind_of_not {a : α} {b : β} {f : α → Except (Halt ε) β} (h : OverflowsWhen P m (.ok a))
    (hf : ¬ P → f a = .ok b) : OverflowsWhen P (m >>= f) (.ok b) := by
  constructor
  case fault =>
    intro hP
    rw [h.fault hP]
    rfl
  case eq =>
    intro hP
    rw [h.eq hP]
    exact hf hP

theorem map (h : OverflowsWhen P m r) (f : α → β) : OverflowsWhen P (m.map f) (r.map f) := by
  refine ⟨fun hP => ?_, fun hP => ?_⟩
  · rw [h.fault hP]
    rfl
  · rw [h.eq hP]
    cases r <;> rfl

theorem bind_pure (h : OverflowsWhen P m r) (f : α → β) :
    OverflowsWhen P (m >>= fun a => pure (f a)) (r >>= fun a => pure (f a)) := by
  rw [bind_pure_comp, bind_pure_comp]
  exact h.map f

/-- A machine has at most one answer. -/
theorem fault_iff (h : OverflowsWhen P m r) : m = .error (.fault .overflow) ↔ P := by
  refine ⟨fun hm => ?_, h.fault⟩
  by_contra hP
  rw [h.eq hP] at hm
  cases r <;> cases hm

/-- What comes out came out without an overflow. -/
theorem eq_ok (h : OverflowsWhen P m r) {a : α} (hm : m = .ok a) : r = .ok a := by
  have hP : ¬ P := by
    intro hP
    rw [h.fault hP] at hm
    cases hm
  rw [h.eq hP] at hm
  cases r with
  | error e => cases hm
  | ok b => exact congrArg Except.ok (Except.ok.inj hm)

/-- A run overflows if one of its steps does, and steps overflow or not whatever ran before them. -/
theorem foldlM {σ : Type} {Q : α → Prop} {step : σ → α → Except (Halt ε) σ} {next : σ → α → σ}
    {l : List α} (h : ∀ a ∈ l, ∀ s, OverflowsWhen (Q a) (step s a) (.ok (next s a))) (s : σ) :
    OverflowsWhen (∃ a ∈ l, Q a) (l.foldlM step s) (.ok (l.foldl next s)) := by
  induction l generalizing s with
  | nil => exact .of_eq (by simp) rfl
  | cons a l ih =>
    obtain ⟨ha, hl⟩ := List.forall_mem_cons.1 h
    rw [List.foldlM_cons, List.foldl_cons]
    exact ((ha s).bind_ok (ih hl (next s a))).congr (by simp)

end OverflowsWhen

end TxTrace.Machine

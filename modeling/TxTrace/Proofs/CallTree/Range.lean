import TxTrace.Proofs.CallTree.Arrangement

/-!
The ranges of frames and the owners of steps. `Ranged` says of a tree under construction that the
frames whose ranges take in a step are its owner and those around it.
-/

namespace TxTrace

open Place

namespace Place

/-- A range that begins before the step at `j` and ends at `stop` goes on to that step. The range of
    an open frame has no end yet, and once steps trail the outermost frame extends over all. -/
def Reaches (line : List Nat) (trailing : Bool) (id : Nat) (stop : Option Nat) (j : Nat) : Prop :=
  id ∈ line ∨ (trailing ∧ id = 0) ∨ ∃ last, stop = some last ∧ j ≤ last

/-- The range of the frame at `id` takes in the step at `j`. -/
def Spans (places : Array Place) (line : List Nat) (trailing : Bool) (id j : Nat) : Prop :=
  ∃ p, places[id]? = some p ∧ p.start ≤ j ∧ Reaches line trailing id p.stop j

/-- The place of the outermost frame when it extends over the steps that trail. -/
def stretch (trailing : Option (Nat × Nat)) (p : Place) : Place :=
  { p with stop := (trailing.map fun (first, count) => first + count - 1).or p.stop }

/-- The place of a frame that ends with the last of `ran` steps. -/
def finish (ran : Nat) (p : Place) : Place :=
  { p with stop := (Progress.before ran).filter (p.start ≤ ·) }

theorem finish_stop_eq_some_iff {ran stop : Nat} {p : Place} :
    (finish ran p).stop = some stop ↔ ran = stop + 1 ∧ p.start ≤ stop := by
  simp only [finish, Progress.before, Option.filter_eq_some_iff, decide_eq_true_eq]
  split_ifs with hzero
  · simp only [false_and, false_iff]
    omega
  · rw [Option.some.injEq]
    omega

end Place

/-- The ranges of a tree under construction when as many steps have run as have `owners`: frames
    begin in their order and no later than the next step, those that ended did so before it, and a
    step lies in the ranges of its owner and of the frames around that. -/
structure Ranged (places : Array Place) (line : List Nat) (owners : Array Nat)
    (trailing : Option (Nat × Nat)) : Prop where
  root_start : ∀ {p : Place}, places[0]? = some p → p.start = 0
  start_le : ∀ {id : Nat} {p : Place}, places[id]? = some p → p.start ≤ owners.size
  start_mono : ∀ {a b : Nat} {p q : Place}, a ≤ b → places[a]? = some p → places[b]? = some q →
    p.start ≤ q.start
  stop_lt : ∀ {id stop : Nat} {p : Place}, places[id]? = some p → p.stop = some stop →
    p.start ≤ stop ∧ stop < owners.size
  owner_lt : ∀ {j owner : Nat}, owners[j]? = some owner → owner < places.size
  spans_iff : ∀ {j owner : Nat}, owners[j]? = some owner →
    ∀ id, Spans places line trailing.isSome id j ↔ Encloses places id owner
  trails : ∀ {first count : Nat}, trailing = some (first, count) →
    line = [] ∧ 0 < count ∧ first + count = owners.size

namespace Ranged

variable {places : Array Place} {line : List Nat} {owners : Array Nat}
  {trailing : Option (Nat × Nat)}

theorem trailing_eq_none (h : Ranged places line owners trailing) (hline : line ≠ []) :
    trailing = none := by
  cases ht : trailing with
  | none => rfl
  | some t => exact absurd (h.trails ht).1 hline

/-- One frame gets another last step. The ranges stay as they are on the steps that have run. -/
theorem modify (h : Ranged places line owners trailing) (id : Nat) (g : Place → Place)
    (hparent : ∀ p, (g p).parent = p.parent) (hstart : ∀ p, (g p).start = p.start)
    {line' : List Nat} {trailing' : Option (Nat × Nat)}
    (hstop : ∀ {p : Place} {stop : Nat}, places[id]? = some p → (g p).stop = some stop →
      p.start ≤ stop ∧ stop < owners.size)
    (hself : ∀ {p : Place} {j : Nat}, places[id]? = some p → p.start ≤ j → j < owners.size →
      (Reaches line' trailing'.isSome id (g p).stop j ↔ Reaches line trailing.isSome id p.stop j))
    (hother : ∀ {i j : Nat} {stop : Option Nat}, i ≠ id →
      (Reaches line' trailing'.isSome i stop j ↔ Reaches line trailing.isSome i stop j))
    (htrails : ∀ {first count : Nat}, trailing' = some (first, count) →
      line' = [] ∧ 0 < count ∧ first + count = owners.size) :
    Ranged (places.modify id g) line' owners trailing' := by
  have hsame : ∀ (i : Nat) (q : Place), (if i = id then g q else q).start = q.start := by
    intro i q
    split_ifs
    · exact hstart q
    · rfl
  have hreach : ∀ {i j : Nat} {q : Place}, places[i]? = some q → q.start ≤ j → j < owners.size →
      (Reaches line' trailing'.isSome i (if i = id then g q else q).stop j ↔
        Reaches line trailing.isSome i q.stop j) := by
    intro i j q hq hle hj
    split_ifs with heq
    · subst heq
      exact hself hq hle hj
    · exact hother heq
  constructor
  case root_start =>
    intro p hp
    obtain ⟨q, hq, rfl⟩ := before_modify hp
    exact (hsame 0 q).trans (h.root_start hq)
  case start_le =>
    intro i p hp
    obtain ⟨q, hq, rfl⟩ := before_modify hp
    rw [hsame]
    exact h.start_le hq
  case start_mono =>
    intro a b p q hab hp hq
    obtain ⟨p', hp', rfl⟩ := before_modify hp
    obtain ⟨q', hq', rfl⟩ := before_modify hq
    rw [hsame, hsame]
    exact h.start_mono hab hp' hq'
  case stop_lt =>
    intro i stop p hp hpstop
    obtain ⟨q, hq, rfl⟩ := before_modify hp
    rw [hsame]
    split_ifs at hpstop with heq
    · exact hstop (heq ▸ hq) hpstop
    · exact h.stop_lt hq hpstop
  case owner_lt =>
    intro j owner howner
    simpa using h.owner_lt howner
  case spans_iff =>
    intro j owner howner i
    have hj : j < owners.size := (Array.getElem?_eq_some_iff.1 howner).1
    rw [encloses_modify hparent, ← h.spans_iff howner i]
    constructor
    · rintro ⟨p, hp, hle, hspan⟩
      obtain ⟨q, hq, rfl⟩ := before_modify hp
      rw [hsame] at hle
      exact ⟨q, hq, hle, (hreach hq hle hj).1 hspan⟩
    · rintro ⟨q, hq, hle, hspan⟩
      refine ⟨_, after_modify hq, ?_, (hreach hq hle hj).2 hspan⟩
      rw [hsame]
      exact hle
  case trails => exact htrails

/-- The innermost open frame ends with the last step. -/
theorem close (h : Ranged places line owners trailing) {top : Nat} {outer : List Nat}
    (hline : line = top :: outer) :
    Ranged (places.modify top (finish owners.size)) outer owners trailing := by
  have hnone : trailing = none := h.trailing_eq_none (by simp [hline])
  subst hline hnone
  refine h.modify top (finish owners.size) (fun _ => rfl) (fun _ => rfl) ?_ ?_ ?_ ?_
  · intro p stop _ hstop
    obtain ⟨hran, hle⟩ := finish_stop_eq_some_iff.1 hstop
    omega
  · intro p j _ hle hj
    constructor
    · intro _
      exact .inl List.mem_cons_self
    · intro _
      refine .inr (.inr ⟨owners.size - 1, ?_, by omega⟩)
      rw [finish_stop_eq_some_iff]
      omega
  · intro i j stop hne
    simp only [Reaches, List.mem_cons, hne, false_or]
  · intro first count ht
    cases ht

/-- A call from the innermost open frame adds a frame that begins with the next step. It may be
    opened. -/
theorem add (h : Ranged places line owners trailing) (ha : Arranged places line) {top : Nat}
    (htop : top ∈ line.head?) {line' : List Nat}
    (hline' : line' = line ∨ line' = places.size :: line) :
    Ranged (Place.add places top line.length owners.size) line' owners trailing := by
  have hne : line ≠ [] := by
    rintro rfl
    cases htop
  have hnone : trailing = none := h.trailing_eq_none hne
  have hreach : ∀ {id j : Nat} {stop : Option Nat}, id < places.size →
      (Reaches line' trailing.isSome id stop j ↔ Reaches line trailing.isSome id stop j) := by
    intro id j stop hid
    rcases hline' with rfl | rfl
    · rfl
    · simp only [Reaches, List.mem_cons, Nat.ne_of_lt hid, false_or]
  constructor
  case root_start =>
    intro p hp
    obtain ⟨q, _, hq, rfl, _⟩ := before_add ha.size_pos hp
    have hzero := h.root_start hq
    exact hzero
  case start_le =>
    intro id p hp
    rcases lt_or_eq_of_add hp with hid | ⟨_, rfl⟩
    · obtain ⟨q, _, hq, rfl, _⟩ := before_add hid hp
      have hle := h.start_le hq
      exact hle
    · exact Nat.le_refl _
  case start_mono =>
    intro a b p q hab hp hq
    rcases lt_or_eq_of_add hq with hb | ⟨hb, rfl⟩
    · obtain ⟨q', _, hq', rfl, _⟩ := before_add hb hq
      obtain ⟨p', _, hp', rfl, _⟩ := before_add (Nat.lt_of_le_of_lt hab hb) hp
      have hle := h.start_mono hab hp' hq'
      exact hle
    · rcases lt_or_eq_of_add hp with ha' | ⟨_, rfl⟩
      · obtain ⟨p', _, hp', rfl, _⟩ := before_add ha' hp
        have hle := h.start_le hp'
        exact hle
      · exact Nat.le_refl _
  case stop_lt =>
    intro id stop p hp hstop
    rcases lt_or_eq_of_add hp with hid | ⟨_, rfl⟩
    · obtain ⟨q, _, hq, rfl, _⟩ := before_add hid hp
      have hbounds := h.stop_lt hq hstop
      exact hbounds
    · cases hstop
  case owner_lt =>
    intro j owner howner
    rw [size_add]
    exact Nat.lt_succ_of_lt (h.owner_lt howner)
  case spans_iff =>
    intro j owner howner id
    have hj : j < owners.size := (Array.getElem?_eq_some_iff.1 howner).1
    rw [ha.encloses_add_of_lt (h.owner_lt howner), ← h.spans_iff howner id]
    constructor
    · rintro ⟨p, hp, hle, hspan⟩
      rcases lt_or_eq_of_add hp with hid | ⟨_, rfl⟩
      · obtain ⟨q, _, hq, rfl, _⟩ := before_add hid hp
        exact ⟨q, hq, hle, (hreach hid).1 hspan⟩
      · exact absurd hle (Nat.not_le.2 hj)
    · rintro ⟨q, hq, hle, hspan⟩
      obtain ⟨_, hq'⟩ := after_add hq
      exact ⟨_, hq', hle, (hreach (lt_size_of_getElem? hq)).2 hspan⟩
  case trails =>
    intro first count ht
    rw [hnone] at ht
    cases ht

/-- The ranges that take in the next step are those without an end. -/
theorem spans_next (h : Ranged places line owners trailing) {trails : Bool} {id : Nat} :
    Spans places line trails id owners.size ↔
      id < places.size ∧ (id ∈ line ∨ (trails ∧ id = 0)) := by
  constructor
  · rintro ⟨p, hp, _, hid | hzero | ⟨stop, hstop, hle⟩⟩
    · exact ⟨lt_size_of_getElem? hp, .inl hid⟩
    · exact ⟨lt_size_of_getElem? hp, .inr hzero⟩
    · have := (h.stop_lt hp hstop).2
      omega
  · rintro ⟨hlt, hid⟩
    have hp : places[id]? = some places[id] := Array.getElem?_eq_getElem hlt
    refine ⟨_, hp, h.start_le hp, ?_⟩
    rcases hid with hid | hzero
    · exact .inl hid
    · exact .inr (.inl hzero)

/-- One more step runs, in the frame at `owner`. -/
theorem push (h : Ranged places line owners trailing) {owner : Nat} (howner : owner < places.size)
    {trailing' : Option (Nat × Nat)}
    (hnext : ∀ id, (id < places.size ∧ (id ∈ line ∨ (trailing'.isSome ∧ id = 0))) ↔
      Encloses places id owner)
    (hbefore : ∀ {j o : Nat}, owners[j]? = some o → ∀ id,
      Spans places line trailing'.isSome id j ↔ Encloses places id o)
    (htrails : ∀ {first count : Nat}, trailing' = some (first, count) →
      line = [] ∧ 0 < count ∧ first + count = owners.size + 1) :
    Ranged places line (owners.push owner) trailing' := by
  have hsize : (owners.push owner).size = owners.size + 1 := Array.size_push _
  refine { h with start_le := ?_, stop_lt := ?_, owner_lt := ?_, spans_iff := ?_, trails := ?_ }
  · intro id p hp
    rw [hsize]
    exact Nat.le_succ_of_le (h.start_le hp)
  · intro id stop p hp hstop
    rw [hsize]
    exact ⟨(h.stop_lt hp hstop).1, Nat.lt_succ_of_lt (h.stop_lt hp hstop).2⟩
  · intro j o ho
    rw [Array.getElem?_push] at ho
    split_ifs at ho with hj
    · exact Option.some.inj ho ▸ howner
    · exact h.owner_lt ho
  · intro j o ho id
    rw [Array.getElem?_push] at ho
    split_ifs at ho with hj
    · obtain rfl := Option.some.inj ho
      rw [hj, h.spans_next]
      exact hnext id
    · exact hbefore ho id
  · intro first count ht
    rw [hsize]
    exact htrails ht

/-- The next step runs in the innermost open frame. -/
theorem own (h : Ranged places line owners trailing) (ha : Arranged places line) {top : Nat}
    (htop : top ∈ line.head?) : Ranged places line (owners.push top) trailing := by
  have hne : line ≠ [] := by
    rintro rfl
    cases htop
  have hnone : trailing = none := h.trailing_eq_none hne
  subst hnone
  refine h.push (ha.lt_size_of_mem_line (List.mem_of_mem_head? htop)) ?_ h.spans_iff ?_
  · intro id
    rw [← ha.mem_line_iff htop]
    constructor
    · rintro ⟨_, hid | ⟨htrue, _⟩⟩
      · exact hid
      · cases htrue
    · intro hid
      exact ⟨ha.lt_size_of_mem_line hid, .inl hid⟩
  · intro first count ht
    cases ht

end Ranged

namespace Arranged

variable {places : Array Place} {line : List Nat}

/-- The outermost frame stands around all. -/
theorem encloses_zero (h : Arranged places line) {id : Nat} (hid : id < places.size) :
    Encloses places 0 id := by
  induction id using Nat.strong_induction_on with
  | h id ih =>
    cases id with
    | zero => exact .refl
    | succ id =>
      have hp : places[id + 1]? = some places[id + 1] := Array.getElem?_eq_getElem hid
      obtain ⟨outer, q, hparent, hle, _, _, _⟩ := h.called hp
      have hcalls : Calls places outer (id + 1) := by
        rw [Calls, caller?, hp, Option.bind_some, hparent]
      exact (ih outer (by omega) (by omega)).tail hcalls

end Arranged

namespace Ranged

variable {places : Array Place} {owners : Array Nat} {trailing : Option (Nat × Nat)}

/-- A step after the outermost frame has ended is given to that frame. -/
theorem trail (h : Ranged places [] owners trailing) (ha : Arranged places []) {first count : Nat}
    (ht : trailing.getD (owners.size, 0) = (first, count)) :
    Ranged places [] (owners.push 0) (some (first, count + 1)) := by
  refine h.push ha.size_pos ?_ ?_ ?_
  · intro id
    constructor
    · rintro ⟨_, hid | ⟨_, hzero⟩⟩
      · cases hid
      · exact hzero ▸ .refl
    · intro hencl
      obtain rfl : id = 0 := Nat.le_zero.1 (ha.le_of_encloses hencl)
      exact ⟨ha.size_pos, .inr ⟨rfl, rfl⟩⟩
  · intro j o ho id
    constructor
    · rintro ⟨p, hp, hstart, hid | ⟨_, rfl⟩ | hstop⟩
      · cases hid
      · exact ha.encloses_zero (h.owner_lt ho)
      · exact (h.spans_iff ho id).1 ⟨p, hp, hstart, .inr (.inr hstop)⟩
    · intro hencl
      obtain ⟨p, hp, hstart, hid | ⟨_, hzero⟩ | hstop⟩ := (h.spans_iff ho id).2 hencl
      · cases hid
      · exact ⟨p, hp, hstart, .inr (.inl ⟨rfl, hzero⟩)⟩
      · exact ⟨p, hp, hstart, .inr (.inr hstop)⟩
  · intro first' count' ht'
    obtain ⟨rfl, rfl⟩ := Prod.mk.inj (Option.some.inj ht')
    refine ⟨rfl, Nat.succ_pos _, ?_⟩
    cases hcase : trailing with
    | none =>
      rw [hcase, Option.getD_none, Prod.mk.injEq] at ht
      omega
    | some t =>
      rw [hcase, Option.getD_some] at ht
      have := (h.trails (hcase.trans (congrArg some ht))).2.2
      omega

/-- At the end the outermost frame is said to extend over the steps that trail. -/
theorem stretch (h : Ranged places [] owners trailing) :
    Ranged (places.modify 0 (Place.stretch trailing)) [] owners none := by
  refine h.modify 0 (Place.stretch trailing) (fun _ => rfl) (fun _ => rfl) ?_ ?_ ?_ ?_
  · intro p stop hp hstop
    cases ht : trailing with
    | none =>
      rw [ht] at hstop
      exact h.stop_lt hp hstop
    | some t =>
      rw [ht] at hstop
      obtain ⟨_, hcount, hran⟩ := h.trails ht
      have hlast : t.1 + t.2 - 1 = stop := Option.some.inj hstop
      have := h.root_start hp
      omega
  · intro p j hp hle hj
    cases ht : trailing with
    | none => rfl
    | some t =>
      obtain ⟨_, hcount, hran⟩ := h.trails ht
      constructor
      · intro _
        exact .inr (.inl ⟨rfl, rfl⟩)
      · intro _
        exact .inr (.inr ⟨t.1 + t.2 - 1, rfl, by omega⟩)
  · intro i j stop hne
    simp only [Reaches, hne, and_false, false_or]
  · intro first count ht
    cases ht

/-- Before the first step there is one frame, and it begins with that step. -/
theorem singleton : Ranged #[⟨none, [], 0, 0, none⟩] [0] #[] none where
  root_start := by simp
  start_le := by
    intro id p hp
    obtain ⟨_, rfl⟩ := Array.getElem?_eq_some_iff.1 hp
    simp
  start_mono := by
    intro a b p q _ hp hq
    obtain ⟨_, rfl⟩ := Array.getElem?_eq_some_iff.1 hp
    obtain ⟨_, rfl⟩ := Array.getElem?_eq_some_iff.1 hq
    simp
  stop_lt := by
    intro id stop p hp hstop
    obtain ⟨_, rfl⟩ := Array.getElem?_eq_some_iff.1 hp
    simp at hstop
  owner_lt := by simp
  spans_iff := by simp
  trails := by simp

end Ranged

end TxTrace

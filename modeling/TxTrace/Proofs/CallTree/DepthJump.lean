import TxTrace.Proofs.CallTree.Persistence
import TxTrace.Proofs.CallTree.Standing

/-!
Jumps of the depth. Where two steps in a row run more than one level apart a jump is recorded, but for
one case (`CallTree.depthJump_mem_anomalies_iff`): after a terminal instruction the next step is held
against the depth of the caller, and one that runs two levels above the instruction passes for a sign
that the caller halted.
-/

namespace TxTrace

namespace Progress

variable {tx : Transaction} {trace : Trace} {steps : Array Step} {b b' : Progress}

/-- A jump is found unless the innermost frame has the depth of the step or is taken to have halted. -/
theorem Aligned.exists_depthJump_iff {i depth : Nat} {top : OpenFrame} {outer : List OpenFrame}
    (h : Aligned steps i depth b b') (hopened : b.opened = top :: outer)
    (hnew : ∀ source target, Anomaly.depthJump i source target ∉ b.anomalies) :
    (∃ source target, .depthJump i source target ∈ b'.anomalies) ↔
      depth ≠ top.depth ∧ ¬ (depth + 1 = top.depth ∧ outer ≠ []) := by
  cases h with
  | level hcons hdepth =>
    obtain ⟨rfl, rfl⟩ := List.cons.inj (hcons.symm.trans hopened)
    refine iff_of_false ?_ fun h => h.1 hdepth.symm
    rintro ⟨source, target, hmem⟩
    exact hnew source target hmem
  | halted hcons houter hdepth =>
    obtain ⟨rfl, rfl⟩ := List.cons.inj (hcons.symm.trans hopened)
    refine iff_of_false ?_ fun h => h.2 ⟨hdepth, houter⟩
    rintro ⟨source, target, hmem⟩
    rw [anomalies_close] at hmem
    exact hnew source target hmem
  | @jumped top outer hcons hne hnot =>
    obtain ⟨rfl, rfl⟩ := List.cons.inj (hcons.symm.trans hopened)
    refine iff_of_true ⟨top.depth, depth, ?_⟩ ⟨hne, hnot⟩
    rw [anomalies_realign]
    exact mem_anomalies_record.2 (.inr rfl)

/-- What an instruction does has no part in the jump that its step shows. -/
theorem depthJump_mem_reached_iff {i : Nat} {t : Step} (ht : trace.steps[i]? = some t)
    (hopened : (reached tx trace.steps i).opened ≠ []) (source target : Nat) :
    .depthJump i source target ∈ (reached tx trace.steps (i + 1)).anomalies ↔
      .depthJump i source target ∈
        ((reached tx trace.steps i).align trace.steps i t.depth).anomalies := by
  have hle : i ≤ trace.steps.size := Nat.le_of_lt (Array.getElem?_eq_some_iff.1 ht).1
  have harrive : ((reached tx trace.steps i).arrive trace.steps i t).anomalies =
      ((reached tx trace.steps i).align trace.steps i t.depth).anomalies :=
    anomalies_settle _ t
  have hran : ((reached tx trace.steps i).arrive trace.steps i t).owners.size = i + 1 := by
    rw [size_owners_arrive, size_owners_reached tx hle]
  rw [reached_succ ht, step_eq_execute hopened, ← harrive]
  constructor
  · intro h
    rcases missingOperands_of_mem_execute h with h | h
    · exact h
    · cases h
  · exact (moves_execute _ (arrive_ne_nil hopened i t) ht hran).mem_anomalies

end Progress

namespace CallTree

/-- A jump shows at a step exactly if the innermost open frame has another depth and is not taken to
    have halted. -/
theorem depthJump_mem_anomalies_iff_of_opened (tx : Transaction) {trace : Trace} (r : Registry)
    {i : Nat} {t : Step} {top : OpenFrame} {outer : List OpenFrame} (ht : trace.steps[i]? = some t)
    (hopened : (Progress.reached tx trace.steps i).opened = top :: outer) :
    (∃ source target, .depthJump i source target ∈ anomalies tx trace r) ↔
      t.depth ≠ top.depth ∧ ¬ (t.depth + 1 = top.depth ∧ outer ≠ []) := by
  have hlt : i < trace.steps.size := (Array.getElem?_eq_some_iff.1 ht).1
  have hne : (Progress.reached tx trace.steps i).opened ≠ [] := hopened ▸ List.cons_ne_nil top outer
  have haligned : Progress.Aligned trace.steps i t.depth (Progress.reached tx trace.steps i)
      ((Progress.reached tx trace.steps i).align trace.steps i t.depth) :=
    Progress.aligned_align (Progress.contiguous_reached tx (Nat.le_of_lt hlt)) hne i t.depth
  have hnew (source target : Nat) :
      .depthJump i source target ∉ (Progress.reached tx trace.steps i).anomalies :=
    Progress.not_mem_anomalies_reached (Nat.le_of_lt hlt) rfl
  rw [← haligned.exists_depthJump_iff hopened hnew]
  refine exists_congr fun source => exists_congr fun target => ?_
  have hmem := mem_anomalies_iff_of_ofStep tx r hlt (a := .depthJump i source target) rfl
  rw [hmem, Progress.depthJump_mem_reached_iff ht hne]

/-- The step `t` runs two levels above the step `s` at `i` before it, which ended a frame that was not
    called from the outermost one. -/
def PassesForHalt (tree : CallTree) (i : Nat) (s t : Step) : Prop :=
  s.IsTerminal ∧ t.depth + 2 = s.depth ∧
    ∃ id f, tree.owner? i = some id ∧ tree.frame? id = some f ∧ 2 ≤ f.level

/-- Two steps in a row that run more than one level apart while frames are open show a jump, unless
    the first ended a frame and the second passes for a sign that the caller halted as well. -/
theorem depthJump_mem_anomalies_iff (tx : Transaction) (trace : Trace) (r : Registry) {i : Nat}
    {s t : Step} (hs : trace.steps[i]? = some s) (ht : trace.steps[i + 1]? = some t)
    (hopened : (Progress.reached tx trace.steps (i + 1)).opened ≠ [])
    (hfar : s.depth + 1 < t.depth ∨ t.depth + 1 < s.depth) :
    (∃ source target, .depthJump (i + 1) source target ∈ anomalies tx trace r) ↔
      ¬ ((ofTrace tx trace).1.named r).1.PassesForHalt i s t := by
  have hlt : i + 1 < trace.steps.size := (Array.getElem?_eq_some_iff.1 ht).1
  obtain ⟨last, hlast⟩ := Progress.exists_back?_eq_some hlt
  have hextends := Progress.extends_closed tx hlast (Nat.le_of_lt hlt)
  have hbefore := Progress.reached_ne_nil_of_le (Nat.le_succ i) (Nat.le_of_lt hlt) hopened
  cases Progress.standing_reached tx hs hbefore with
  | ended hclosed => exact absurd hclosed hopened
  | inside hcons hdepth howner hkind =>
    rw [depthJump_mem_anomalies_iff_of_opened tx r ht hcons]
    refine iff_of_true ⟨by omega, by omega⟩ fun h => hkind h.1
  | entered hcons hdepth hnext =>
    have := hnext t ht
    rw [depthJump_mem_anomalies_iff_of_opened tx r ht hcons]
    refine iff_of_true ⟨by omega, by omega⟩ fun h => ?_
    have := h.2.1
    omega
  | @left caller outer id f hcons hdepth hkind howner hf hparent hlevel =>
    rw [depthJump_mem_anomalies_iff_of_opened tx r ht hcons]
    have howner' := owner?_named_ofTrace tx trace r (hextends.owners howner)
    obtain ⟨g, hg, hsame⟩ := hextends.frames hf
    have hg' : ((ofTrace tx trace).1.named r).1.frame? id = some (finalFrame tx trace r id g) := by
      rw [frame?_named_ofTrace, hg, Option.map_some]
    have hlevel' : (finalFrame tx trace r id g).level = outer.length + 1 := by
      rw [(hsame.trans (sameCall_finalFrame tx trace r id g)).level, hlevel, hcons, List.length_cons]
    have hpasses : ((ofTrace tx trace).1.named r).1.PassesForHalt i s t ↔
        t.depth + 2 = s.depth ∧ outer ≠ [] := by
      constructor
      · rintro ⟨_, hdrop, id', f', hid', hf', htwo⟩
        obtain rfl := Option.some.inj (howner'.symm.trans hid')
        obtain rfl := Option.some.inj (hg'.symm.trans hf')
        refine ⟨hdrop, List.ne_nil_of_length_pos ?_⟩
        omega
      · rintro ⟨hdrop, houter⟩
        have := List.length_pos_iff.2 houter
        exact ⟨hkind, hdrop, id, _, howner', hg', by omega⟩
    rw [hpasses]
    constructor
    · rintro ⟨_, hnot⟩ ⟨hdrop, houter⟩
      exact hnot ⟨by omega, houter⟩
    · intro hnot
      exact ⟨by omega, fun h => hnot ⟨by omega, h.2⟩⟩

/-- A contract calls another one, which calls a third; the third stops, and the next step is one of
    the first. -/
def skippedReturn : Trace where
  steps :=
    #[⟨0, "CALL", 1, 100, 10, [50, 0xcc, 0, 0, 0, 0, 0], none, none, none, none⟩,
      ⟨0, "CALL", 2, 80, 10, [30, 0xdd, 0, 0, 0, 0, 0], none, none, none, none⟩,
      ⟨0, "STOP", 3, 60, 0, [], none, none, none, none⟩,
      ⟨1, "STOP", 1, 50, 0, [1], none, none, none, none⟩]
  dropped := []
  gasUsed := none
  failed := none
  returnValue := none
  depth_le := by simp [maxCallDepth]

/-- A step runs two levels below the one before it. -/
def unseenCalls : Trace where
  steps :=
    #[⟨0, "JUMPDEST", 1, 100, 1, [], none, none, none, none⟩,
      ⟨0, "JUMPDEST", 3, 80, 1, [], none, none, none, none⟩]
  dropped := []
  gasUsed := none
  failed := none
  returnValue := none
  depth_le := by simp [maxCallDepth]

theorem depthJump_mem_anomalies_iff_unseenCalls :
    (∃ source target, .depthJump 1 source target ∈
        anomalies ⟨none, 0xee, some 0xbb, [], 0, 0, 0, none, none⟩ unseenCalls Registry.empty) ↔
      ¬ ((ofTrace ⟨none, 0xee, some 0xbb, [], 0, 0, 0, none, none⟩ unseenCalls).1.named
          Registry.empty).1.PassesForHalt 0
        ⟨0, "JUMPDEST", 1, 100, 1, [], none, none, none, none⟩
        ⟨0, "JUMPDEST", 3, 80, 1, [], none, none, none, none⟩ :=
  depthJump_mem_anomalies_iff _ unseenCalls Registry.empty rfl rfl (by decide +kernel)
    (.inl (by decide))

/-- Not every two steps in a row that run more than one level apart show a jump. -/
theorem not_forall_depthJump_mem_anomalies :
    ¬ ∀ (tx : Transaction) (trace : Trace) (r : Registry) (i : Nat) (s t : Step),
        trace.steps[i]? = some s → trace.steps[i + 1]? = some t →
        (Progress.reached tx trace.steps (i + 1)).opened ≠ [] →
        s.depth + 1 < t.depth ∨ t.depth + 1 < s.depth →
        ∃ source target, .depthJump (i + 1) source target ∈ anomalies tx trace r := by
  intro h
  obtain ⟨source, target, hmem⟩ :=
    h ⟨none, 0xee, some 0xbb, [], 0, 0, 0, none, none⟩ skippedReturn Registry.empty 2 _ _ rfl rfl
      (by decide +kernel) (.inr (by decide))
  have hnone : (anomalies ⟨none, 0xee, some 0xbb, [], 0, 0, 0, none, none⟩ skippedReturn
      Registry.empty).isEmpty = true := by decide +kernel
  rw [List.isEmpty_iff.1 hnone] at hmem
  cases hmem

end CallTree

end TxTrace

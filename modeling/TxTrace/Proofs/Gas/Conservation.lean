import TxTrace.Proofs.CallTree.WellFormed
import TxTrace.Proofs.Machine.Gas

/-!
The gas of a transaction is that of its outermost frame. What the entries of a profile say that the
functions used themselves adds up to it, where no frame used less than the frames that it called, and never
to less (`CallTree.selfGas_named_ofTrace`).
-/

namespace TxTrace

theorem sumGas_map_add {α : Type} (l : List α) (f g : α → Nat) :
    sumGas (l.map fun a => f a + g a) = sumGas (l.map f) + sumGas (l.map g) := by
  induction l with
  | nil => rfl
  | cons a l ih =>
    simp only [List.map_cons, sumGas_cons, ih]
    omega

namespace CallTree

variable {tree : CallTree} {steps : Nat}

/-- The gas of the frame at a position, if there is one. -/
def gasAt (tree : CallTree) (id : Nat) : Nat := ((tree.frame? id).map (·.gasUsed)).getD 0

theorem calledGas_eq (tree : CallTree) (f : Frame) :
    tree.calledGas f = sumGas (f.children.toList.map tree.gasAt) := by
  rw [calledGas, children]
  induction f.children.toList with
  | nil => rfl
  | cons c cs ih =>
    cases hc : tree.frame? c with
    | none =>
      have hzero : tree.gasAt c = 0 := by rw [gasAt, hc]; rfl
      rw [List.filterMap_cons_none hc, ih, List.map_cons, sumGas_cons, hzero, Nat.zero_add]
    | some g =>
      have hgas : tree.gasAt c = g.gasUsed := by rw [gasAt, hc]; rfl
      rw [List.filterMap_cons_some hc, List.map_cons, List.map_cons, sumGas_cons, sumGas_cons, ih, hgas]

theorem map_gasAt_range (tree : CallTree) :
    (List.range tree.frames.size).map tree.gasAt = tree.frames.toList.map (·.gasUsed) := by
  apply List.ext_getElem
  · simp
  · intro id hid hid'
    have hlt : id < tree.frames.size := by simpa using hid
    simp [gasAt, frame?, hlt]

/-- The frames that were called are all but the outermost one, each once. -/
theorem WellFormed.perm_children (h : tree.WellFormed steps) :
    (tree.frames.toList.flatMap (·.children.toList)).Perm (List.range' 1 (tree.frames.size - 1)) := by
  have hmem : ∀ id ∈ tree.frames.toList.flatMap (·.children.toList), 0 < id ∧ id < tree.frames.size := by
    intro id hid
    obtain ⟨f, hf, hid⟩ := List.mem_flatMap.1 hid
    obtain ⟨p, hp⟩ := List.mem_iff_getElem?.1 hf
    obtain ⟨g, hg, hparent⟩ := (h.mem_children_iff (Array.getElem?_toList.symm.trans hp) id).1 hid
    refine ⟨Nat.pos_of_ne_zero ?_, (Array.getElem?_eq_some_iff.1 hg).1⟩
    rintro rfl
    obtain rfl := Option.some.inj (tree.frame?_root.symm.trans hg)
    rw [h.root.1] at hparent
    cases hparent
  have hnodup : (tree.frames.toList.flatMap (·.children.toList)).Nodup := by
    rw [List.nodup_iff_count_le_one]
    intro id
    by_cases hid : id ∈ tree.frames.toList.flatMap (·.children.toList)
    · exact Nat.le_of_eq (h.listed_once (hmem id hid).1 (hmem id hid).2)
    · rw [List.count_eq_zero_of_not_mem hid]
      exact Nat.zero_le 1
  rw [List.perm_ext_iff_of_nodup hnodup List.nodup_range']
  intro id
  rw [List.mem_range'_1]
  constructor
  · intro hid
    have := hmem id hid
    omega
  · rintro ⟨hpos, hlt⟩
    have hcount := h.listed_once hpos (show id < tree.frames.size by omega)
    exact List.count_pos_iff.1 (by omega)

/-- All gas is that of the outermost frame or of a frame that was called. -/
theorem WellFormed.sumGas_eq (h : tree.WellFormed steps) :
    sumGas (tree.frames.toList.map (·.gasUsed)) =
      tree.root.gasUsed + sumGas (tree.frames.toList.map tree.calledGas) := by
  have hcalled : sumGas (tree.frames.toList.map tree.calledGas) =
      sumGas ((List.range' 1 (tree.frames.size - 1)).map tree.gasAt) := by
    rw [← sumGas_perm (h.perm_children.map tree.gasAt), List.map_flatMap, sumGas_flatMap]
    exact congrArg sumGas (List.map_congr_left fun f _ => tree.calledGas_eq f)
  have hroot : tree.gasAt 0 = tree.root.gasUsed := by
    rw [gasAt, tree.frame?_root]
    rfl
  have hrange : List.range tree.frames.size = 0 :: List.range' 1 (tree.frames.size - 1) := by
    rw [List.range_eq_range', ← Nat.sub_add_cancel tree.frames_pos, List.range'_succ]
    rfl
  rw [hcalled, ← tree.map_gasAt_range, hrange, List.map_cons, ← hroot]
  rfl

/-- Each frame has its own gas and at most that of the frames that it called. -/
theorem WellFormed.root_le_sumGas (h : tree.WellFormed steps) :
    tree.root.gasUsed ≤ sumGas (tree.frames.toList.map tree.ownGas) := by
  have hle : sumGas (tree.frames.toList.map (·.gasUsed)) ≤
      sumGas (tree.frames.toList.map fun f => tree.ownGas f + tree.calledGas f) := by
    apply sumGas_map_le
    intro f _
    rw [ownGas]
    omega
  rw [h.sumGas_eq, sumGas_map_add] at hle
  omega

theorem WellFormed.sumGas_ownGas (h : tree.WellFormed steps)
    (hcovers : ∀ f ∈ tree.frames, tree.calledGas f ≤ f.gasUsed) :
    sumGas (tree.frames.toList.map tree.ownGas) = tree.root.gasUsed := by
  have heq : tree.frames.toList.map (·.gasUsed) =
      tree.frames.toList.map fun f => tree.ownGas f + tree.calledGas f := by
    refine List.map_congr_left fun f hf => ?_
    rw [ownGas, Nat.sub_add_cancel (hcovers f (Array.mem_toList_iff.1 hf))]
  have hsum := h.sumGas_eq
  rw [heq, sumGas_map_add] at hsum
  omega

theorem gasUsed_le_of_sumGas_le (htotal : sumGas (tree.frames.toList.map (·.gasUsed)) ≤ max64) :
    ∀ f ∈ tree.frames, f.gasUsed ≤ max64 := fun _ hf =>
  Nat.le_trans (le_sumGas_of_mem (List.mem_map_of_mem (Array.mem_toList_iff.2 hf))) htotal

/-- The frames that one frame called used no more gas than all frames. -/
theorem WellFormed.calledGas_le (h : tree.WellFormed steps)
    (htotal : sumGas (tree.frames.toList.map (·.gasUsed)) ≤ max64) :
    ∀ f ∈ tree.frames, tree.calledGas f ≤ max64 := by
  intro f hf
  have hle : tree.calledGas f ≤ sumGas (tree.frames.toList.map tree.calledGas) :=
    le_sumGas_of_mem (List.mem_map_of_mem (Array.mem_toList_iff.2 hf))
  rw [h.sumGas_eq] at htotal
  omega

/-- Where all gas is a number of 64 bits, no sum of a profile stops short. -/
theorem sumGas_selfGas (htotal : sumGas (tree.frames.toList.map (·.gasUsed)) ≤ max64) :
    sumGas (tree.gasProfile.map (·.selfGas)) = sumGas (tree.frames.toList.map tree.ownGas) := by
  have hown : sumGas (tree.frames.toList.map tree.ownGas) ≤ max64 :=
    Nat.le_trans (sumGas_map_le fun _ _ => Nat.sub_le _ _) htotal
  rw [sumGas_perm (tree.perm_gasProfile.map (·.selfGas)), List.map_map, ← tree.sumGas_labels tree.ownGas]
  congr 1
  refine List.map_congr_left fun label hlabel => ?_
  have hgroup : sumGas ((tree.labelled label).map tree.ownGas) ≤ max64 := by
    rw [← tree.sumGas_labels tree.ownGas] at hown
    exact Nat.le_trans (le_sumGas_of_mem (List.mem_map.2 ⟨label, hlabel, rfl⟩)) hown
  exact Nat.min_eq_left hgroup

/-- There is a profile, and no amount of it overflows. What all functions used themselves is at least the gas
    of the outermost frame, and just that if no frame used less than the frames that it called. -/
theorem selfGas_named_ofTrace (tx : Transaction) (trace : Trace) (r : Registry) :
    let tree := ((ofTrace tx trace).1.named r).1
    sumGas (tree.frames.toList.map (·.gasUsed)) ≤ max64 →
      Machine.gasProfile tree = .ok tree.gasProfile ∧
        tree.root.gasUsed ≤ sumGas (tree.gasProfile.map (·.selfGas)) ∧
        ((∀ f ∈ tree.frames, sumGas ((tree.children f).map (·.gasUsed)) ≤ f.gasUsed) →
          sumGas (tree.gasProfile.map (·.selfGas)) = tree.root.gasUsed) := by
  intro tree htotal
  have hformed := WellFormed.of_places (arranged_named_ofTrace tx trace r) (ranged_named_ofTrace tx trace r)
  have hsmall : ¬ ∃ f ∈ tree.frames, max64 < tree.calledGas f := fun ⟨f, hf, hlarge⟩ =>
    Nat.not_lt.2 (hformed.calledGas_le htotal f hf) hlarge
  have hprofile := (Machine.overflowsWhen_gasProfile (gasUsed_le_of_sumGas_le htotal)).eq hsmall
  rw [sumGas_selfGas htotal]
  exact ⟨hprofile, hformed.root_le_sumGas, hformed.sumGas_ownGas⟩

/-- A contract calls another one twice, which uses 20 units of gas and then 1. -/
def pricedCall : Trace where
  steps :=
    #[⟨0, "CALL", 1, 100, 10, [50, 0xcc, 0, 0, 0, 0, 0], none, none, none, none⟩,
      ⟨0, "JUMPDEST", 2, 80, 1, [], none, none, none, none⟩,
      ⟨1, "STOP", 2, 60, 0, [], none, none, none, none⟩,
      ⟨1, "CALL", 1, 60, 10, [50, 0xcc, 0, 0, 0, 0, 0], none, none, none, none⟩,
      ⟨0, "JUMPDEST", 2, 56, 1, [], none, none, none, none⟩,
      ⟨1, "STOP", 2, 55, 0, [], none, none, none, none⟩,
      ⟨2, "STOP", 1, 50, 0, [1], none, none, none, none⟩]
  dropped := []
  gasUsed := none
  failed := none
  returnValue := none
  depth_le := by simp [maxCallDepth]

/-- The tree of a call of the contract `0xbb` with that trace. -/
def pricedTree : CallTree :=
  ((ofTrace ⟨none, 0xee, some 0xbb, [], 0, 0, 0, none, none⟩ pricedCall).1.named Registry.empty).1

theorem selfGas_named_ofTrace_pricedCall :
    pricedTree.frames.toList.map (·.gasUsed) = [50, 20, 1] ∧
      ∃ profile, Machine.gasProfile pricedTree = .ok profile ∧
        sumGas (profile.map (·.selfGas)) = pricedTree.root.gasUsed := by
  have hgas : pricedTree.frames.toList.map (·.gasUsed) = [50, 20, 1] := by decide +kernel
  have htotal : sumGas (pricedTree.frames.toList.map (·.gasUsed)) ≤ max64 := by
    rw [hgas]
    decide
  have hcovers : ∀ f ∈ pricedTree.frames, sumGas ((pricedTree.children f).map (·.gasUsed)) ≤ f.gasUsed := by
    decide +kernel
  obtain ⟨hprofile, -, hequal⟩ := selfGas_named_ofTrace ⟨none, 0xee, some 0xbb, [], 0, 0, 0, none, none⟩
    pricedCall Registry.empty htotal
  exact ⟨hgas, _, hprofile, hequal hcovers⟩

end CallTree

end TxTrace

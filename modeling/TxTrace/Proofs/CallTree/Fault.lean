import TxTrace.CallTree.Fault
import TxTrace.Proofs.CallTree.CallSite

/-!
Where failures began (`CallTree.fault?_named_ofTrace`). Frames stop in the order of their calls, so the
call that ended last is the last one that was made: the fault of a tree that failed is found along calls
that were the last ones of their callers. In a tree that did not fail it is the first failure, and none
inside it comes before it, for a frame stops after those that it called.
-/

namespace TxTrace.CallTree

variable {tree : CallTree} {steps : Nat}

/-- The last frame that the frame at `id` called. -/
def lastChild? (tree : CallTree) (id : Nat) : Option Nat := (tree.frame? id).bind (·.children.back?)

/-- The last frame that the one at `outer` called is that at `inner`, and it failed. -/
def FailsLast (tree : CallTree) (outer inner : Nat) : Prop :=
  tree.lastChild? outer = some inner ∧ tree.failedAt inner

theorem failedAt_iff {id : Nat} :
    tree.failedAt id ↔ ∃ f, tree.frame? id = some f ∧ f.status.isFailure := by
  simp [failedAt, Option.any_eq_true]

theorem failedAt_zero : tree.failedAt 0 = tree.root.status.isFailure := by
  rw [failedAt, tree.frame?_root, Option.any_some]

/-! ### The call that ended last -/

theorem lastMax?_concat (key : Nat → Nat) (ids : List Nat) (id : Nat) :
    lastMax? key (ids ++ [id]) =
      match lastMax? key ids with
      | some b => if key b ≤ key id then some id else some b
      | none => some id := by
  rw [lastMax?, List.foldl_append]
  rfl

theorem lastMax?_eq_getLast? {key : Nat → Nat} {ids : List Nat}
    (h : ids.Pairwise fun a b => key a ≤ key b) : lastMax? key ids = ids.getLast? := by
  induction ids using List.reverseRecOn with
  | nil => rfl
  | append_singleton ids id ih =>
    obtain ⟨hinit, _, hlast⟩ := List.pairwise_append.1 h
    rw [lastMax?_concat, ih hinit, List.getLast?_concat]
    cases hb : ids.getLast? with
    | none => rfl
    | some b => exact if_pos (hlast b (List.mem_of_getLast? hb) id List.mem_cons_self)

theorem lastStepOf_of_frame? {id : Nat} {f : Frame} (hf : tree.frame? id = some f) :
    tree.lastStepOf id = f.lastStep := by
  rw [lastStepOf, hf]
  rfl

/-- The call that ended last is the last one that was made. -/
theorem WellFormed.lastCallee?_eq (h : tree.WellFormed steps) (hs : tree.Sited) (id : Nat) :
    tree.lastCallee? id = tree.lastChild? id := by
  unfold lastCallee? lastChild?
  cases hf : tree.frame? id with
  | none => rfl
  | some f =>
    have hordered : f.children.toList.Pairwise fun a b => tree.lastStepOf a ≤ tree.lastStepOf b := by
      refine (h.children_sorted hf).imp_of_mem fun {a b} ha hb hab => ?_
      obtain ⟨ga, hga, hpa⟩ := (h.mem_children_iff hf a).1 ha
      obtain ⟨gb, hgb, hpb⟩ := (h.mem_children_iff hf b).1 hb
      rw [lastStepOf_of_frame? hga, lastStepOf_of_frame? hgb]
      exact Nat.le_of_lt (h.lastStep_lt hs hab hga hgb hpa hpb)
    have hlast : lastMax? tree.lastStepOf f.children.toList = f.children.back? := by
      rw [lastMax?_eq_getLast? hordered, Array.getLast?_toList]
    show (lastMax? tree.lastStepOf f.children.toList).filter _ = f.children.back?
    rw [hlast]
    cases hback : f.children.back? with
    | none => rfl
    | some c =>
      have hmem : c ∈ f.children.toList := Array.mem_toList_iff.2 (Array.mem_of_back? hback)
      obtain ⟨g, hg, hparent⟩ := (h.mem_children_iff hf c).1 hmem
      have hsize : c < tree.frames.size := (Array.getElem?_eq_some_iff.1 hg).1
      simp [(h.of_parent hg hparent).1, hsize]

/-- A failure is followed down to the last call that failed of each frame. -/
theorem WellFormed.faultBelow_spec (h : tree.WellFormed steps) (hs : tree.Sited) (id : Nat) :
    Relation.ReflTransGen tree.FailsLast id (tree.faultBelow id) ∧
      ∀ c, ¬ tree.FailsLast (tree.faultBelow id) c := by
  fun_induction faultBelow tree id with
  | case1 id c hcallee hfailed ih =>
    rw [h.lastCallee?_eq hs] at hcallee
    exact ⟨.head ⟨hcallee, hfailed⟩ ih.1, ih.2⟩
  | case2 id c hcallee hfailed =>
    rw [h.lastCallee?_eq hs] at hcallee
    refine ⟨.refl, ?_⟩
    rintro c' ⟨hchild, hfailed'⟩
    obtain rfl := Option.some.inj (hcallee.symm.trans hchild)
    exact hfailed hfailed'
  | case3 id hcallee =>
    rw [h.lastCallee?_eq hs] at hcallee
    refine ⟨.refl, ?_⟩
    rintro c ⟨hchild, _⟩
    rw [hcallee] at hchild
    cases hchild

/-- All that stands around a frame that is reached along failures failed. -/
theorem WellFormed.failedAt_of_reflTransGen (h : tree.WellFormed steps) {id : Nat}
    (hroot : tree.failedAt 0) (hpath : Relation.ReflTransGen tree.FailsLast 0 id) :
    tree.failedAt id ∧ ∀ a ∈ tree.ancestors id, tree.failedAt a := by
  induction hpath with
  | refl =>
    have hnil := ancestors_of_parent_none tree.frame?_root h.root.1
    refine ⟨hroot, fun a ha => ?_⟩
    rw [hnil] at ha
    cases ha
  | @tail outer inner _ hlast ih =>
    obtain ⟨hchild, hfailed⟩ := hlast
    obtain ⟨f, hf, hback⟩ := Option.bind_eq_some_iff.1 hchild
    obtain ⟨g, hg, hparent⟩ :=
      (h.mem_children_iff hf inner).1 (Array.mem_toList_iff.2 (Array.mem_of_back? hback))
    refine ⟨hfailed, fun a ha => ?_⟩
    rw [h.ancestors_eq hg hparent] at ha
    rcases List.mem_cons.1 ha with rfl | ha
    · exact ih.1
    · exact ih.2 a ha

/-! ### The failure that came first -/

theorem stopsBefore_iff {a b : Nat} : tree.stopsBefore a b ↔
    tree.lastStepOf a < tree.lastStepOf b ∨ tree.lastStepOf a = tree.lastStepOf b ∧
      ((tree.frame? b).map (·.level)).getD 0 < ((tree.frame? a).map (·.level)).getD 0 := by
  simp [stopsBefore]

/-- The frame among `ids` that stopped first. -/
def firstStopped? (tree : CallTree) (ids : List Nat) : Option Nat :=
  ids.foldl (fun best id =>
    match best with
    | some b => if tree.stopsBefore id b then some id else some b
    | none => some id) none

theorem firstFailed?_eq :
    tree.firstFailed? = tree.firstStopped? ((List.range tree.frames.size).filter tree.failedAt) := rfl

theorem firstStopped?_concat (ids : List Nat) (id : Nat) :
    tree.firstStopped? (ids ++ [id]) =
      match tree.firstStopped? ids with
      | some b => if tree.stopsBefore id b then some id else some b
      | none => some id := by
  rw [firstStopped?, List.foldl_append]
  rfl

theorem firstStopped?_eq_none_iff {ids : List Nat} : tree.firstStopped? ids = none ↔ ids = [] := by
  rcases List.eq_nil_or_concat ids with rfl | ⟨init, last, rfl⟩
  · simp [firstStopped?]
  · rw [List.concat_eq_append, firstStopped?_concat]
    split
    · split <;> simp
    · simp

theorem firstStopped?_spec {ids : List Nat} {id : Nat} (h : tree.firstStopped? ids = some id) :
    id ∈ ids ∧ ∀ c ∈ ids, ¬ tree.stopsBefore c id := by
  induction ids using List.reverseRecOn generalizing id with
  | nil => cases h
  | append_singleton ids last ih =>
    rw [firstStopped?_concat] at h
    split at h
    · next b hb =>
      obtain ⟨hmem, hfirst⟩ := ih hb
      split at h
      · next hbefore =>
        obtain rfl := Option.some.inj h
        refine ⟨by simp, fun c hc => ?_⟩
        rcases List.mem_append.1 hc with hc | hc
        · have hnot := hfirst c hc
          rw [stopsBefore_iff] at hnot hbefore ⊢
          omega
        · obtain rfl := List.mem_singleton.1 hc
          rw [stopsBefore_iff]
          omega
      · next hbefore =>
        obtain rfl := Option.some.inj h
        refine ⟨List.mem_append_left _ hmem, fun c hc => ?_⟩
        rcases List.mem_append.1 hc with hc | hc
        · exact hfirst c hc
        · obtain rfl := List.mem_singleton.1 hc
          exact hbefore
    · next hnone =>
      obtain rfl := Option.some.inj h
      obtain rfl := firstStopped?_eq_none_iff.1 hnone
      refine ⟨by simp, fun c hc => ?_⟩
      obtain rfl := List.mem_singleton.1 hc
      rw [stopsBefore_iff]
      omega

theorem mem_failed_iff {id : Nat} :
    id ∈ (List.range tree.frames.size).filter tree.failedAt ↔ tree.failedAt id := by
  rw [List.mem_filter, List.mem_range]
  refine ⟨And.right, fun h => ⟨?_, h⟩⟩
  obtain ⟨f, hf, _⟩ := failedAt_iff.1 h
  exact (Array.getElem?_eq_some_iff.1 hf).1

/-- The failure that stopped first stopped before all others, and none is inside it. -/
theorem WellFormed.firstFailed?_spec (h : tree.WellFormed steps) (hs : tree.Sited)
    (hroot : ¬ tree.failedAt 0) {id : Nat} (hfirst : tree.firstFailed? = some id) :
    tree.failedAt id ∧
      (∃ f k, tree.frame? id = some f ∧ f.stop.or f.callStep = some k ∧
        ∀ c g, tree.frame? c = some g → g.status.isFailure →
          ∃ k', g.stop.or g.callStep = some k' ∧ k ≤ k') ∧
      ∀ c, id ∈ tree.ancestors c → ¬ tree.failedAt c := by
  have hstops {c : Nat} {g : Frame} (hg : tree.frame? c = some g) (hfailed : g.status.isFailure) :
      g.stop.or g.callStep = some g.lastStep := by
    refine hs.stop_or_callStep hg (Nat.pos_of_ne_zero ?_)
    rintro rfl
    exact hroot (failedAt_iff.2 ⟨g, hg, hfailed⟩)
  rw [firstFailed?_eq] at hfirst
  obtain ⟨hmem, hbefore⟩ := firstStopped?_spec hfirst
  have hfailed := mem_failed_iff.1 hmem
  obtain ⟨f, hf, hstatus⟩ := failedAt_iff.1 hfailed
  refine ⟨hfailed, ⟨f, f.lastStep, hf, hstops hf hstatus, ?_⟩, ?_⟩
  · intro c g hg hstatus'
    have hnot := hbefore c (mem_failed_iff.2 (failedAt_iff.2 ⟨g, hg, hstatus'⟩))
    rw [stopsBefore_iff, lastStepOf_of_frame? hg, lastStepOf_of_frame? hf] at hnot
    exact ⟨g.lastStep, hstops hg hstatus', by omega⟩
  · intro c hc hfailed'
    obtain ⟨g, hg, _⟩ := failedAt_iff.1 hfailed'
    obtain ⟨hle, hlevel⟩ := h.lastStep_le_of_mem_ancestors hs hf hg hc
    -- A frame inside stops no later, and from further inside.
    apply hbefore c (mem_failed_iff.2 hfailed')
    rw [stopsBefore_iff, lastStepOf_of_frame? hg, lastStepOf_of_frame? hf, hf, hg]
    simp only [Option.map_some, Option.getD_some]
    omega

theorem firstFailed?_eq_none_iff : tree.firstFailed? = none ↔ ∀ id, ¬ tree.failedAt id := by
  rw [firstFailed?_eq, firstStopped?_eq_none_iff, List.eq_nil_iff_forall_not_mem]
  exact forall_congr' fun id => not_congr mem_failed_iff

/-! ### The fault -/

theorem fault?_of_failed (hroot : tree.failedAt 0) : tree.fault? = some (tree.faultBelow 0) := by
  rw [failedAt_zero] at hroot
  exact if_pos hroot

theorem fault?_of_not_failed (hroot : ¬ tree.failedAt 0) : tree.fault? = tree.firstFailed? := by
  rw [failedAt_zero] at hroot
  exact if_neg hroot

theorem fault?_eq_none_iff : tree.fault? = none ↔ ∀ id, ¬ tree.failedAt id := by
  by_cases hroot : tree.failedAt 0
  · rw [fault?_of_failed hroot]
    exact iff_of_false (Option.some_ne_none _) fun h => h 0 hroot
  · rw [fault?_of_not_failed hroot]
    exact firstFailed?_eq_none_iff

/-- The fault of a tree whose outermost frame failed is reached along failures, and nothing around it
    did not fail. -/
theorem WellFormed.fault?_of_failed_root (h : tree.WellFormed steps) (hs : tree.Sited)
    (hroot : tree.failedAt 0) :
    ∃ id, tree.fault? = some id ∧ tree.failedAt id ∧ (∀ a ∈ tree.ancestors id, tree.failedAt a) ∧
      Relation.ReflTransGen tree.FailsLast 0 id ∧ ∀ c, ¬ tree.FailsLast id c := by
  obtain ⟨hpath, hlast⟩ := h.faultBelow_spec hs 0
  obtain ⟨hfailed, haround⟩ := h.failedAt_of_reflTransGen hroot hpath
  exact ⟨_, fault?_of_failed hroot, hfailed, haround, hpath, hlast⟩

/-- The fault of the tree of a trace. There is one unless nothing failed. In a transaction that failed
    it is reached from the outermost frame along last calls that failed, as far as these go. In one that
    did not fail it is a failure that stopped no later than any other, with none inside it. -/
theorem fault?_named_ofTrace (tx : Transaction) (trace : Trace) (r : Registry) :
    let tree := ((ofTrace tx trace).1.named r).1
    (tree.fault? = none ↔ ∀ id, ¬ tree.failedAt id) ∧
      (tree.failedAt 0 → ∃ id, tree.fault? = some id ∧ tree.failedAt id ∧
        (∀ a ∈ tree.ancestors id, tree.failedAt a) ∧
        Relation.ReflTransGen tree.FailsLast 0 id ∧ ∀ c, ¬ tree.FailsLast id c) ∧
      (¬ tree.failedAt 0 → ∀ id, tree.fault? = some id → tree.failedAt id ∧
        (∃ f k, tree.frame? id = some f ∧ f.stop.or f.callStep = some k ∧
          ∀ c g, tree.frame? c = some g → g.status.isFailure →
            ∃ k', g.stop.or g.callStep = some k' ∧ k ≤ k') ∧
        ∀ c, id ∈ tree.ancestors c → ¬ tree.failedAt c) := by
  intro tree
  have hwellFormed : tree.WellFormed tree.owners.size :=
    .of_places (arranged_named_ofTrace tx trace r) (ranged_named_ofTrace tx trace r)
  have hsited : tree.Sited := sited_named_ofTrace tx trace r
  refine ⟨fault?_eq_none_iff, hwellFormed.fault?_of_failed_root hsited, fun hroot id hfault => ?_⟩
  rw [fault?_of_not_failed hroot] at hfault
  exact hwellFormed.firstFailed?_spec hsited hroot hfault

/-- A contract calls another one, which reverts, and stops. -/
def caughtCall : Trace where
  steps :=
    #[⟨0, "CALL", 1, 100, 10, [50, 0xcc, 0, 0, 0, 0, 0], none, none, none, none⟩,
      ⟨0, "REVERT", 2, 80, 0, [0, 0], none, none, none, none⟩,
      ⟨1, "STOP", 1, 70, 0, [0], none, none, none, none⟩]
  dropped := []
  gasUsed := none
  failed := none
  returnValue := none
  depth_le := by simp [maxCallDepth]

/-- The tree of a call of the contract `0xbb` that catches the failure of the one it calls. -/
def caughtTree : CallTree :=
  ((ofTrace ⟨none, 0xee, some 0xbb, [], 0, 0, 0, none, none⟩ caughtCall).1.named Registry.empty).1

theorem fault?_named_ofTrace_caught :
    caughtTree.fault? = some 1 ∧ caughtTree.failedAt 1 ∧
      ∀ c, 1 ∈ caughtTree.ancestors c → ¬ caughtTree.failedAt c := by
  have hroot : ¬ caughtTree.failedAt 0 := by decide +kernel
  have hfault : caughtTree.fault? = some 1 := by decide +kernel
  obtain ⟨hfailed, _, hinside⟩ :=
    (fault?_named_ofTrace ⟨none, 0xee, some 0xbb, [], 0, 0, 0, none, none⟩ caughtCall
      Registry.empty).2.2 hroot 1 hfault
  exact ⟨hfault, hfailed, hinside⟩

end TxTrace.CallTree

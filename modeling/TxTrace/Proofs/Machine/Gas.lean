import Mathlib.Data.List.Perm.Basic
import TxTrace.Machine.Gas
import TxTrace.Proofs.CallTree.Persistence
import TxTrace.Proofs.Gas.Profile
import TxTrace.Proofs.Machine.Size

/-!
The gas of a transaction on a machine, where amounts have 64 bits. The frames of a tree are counted one by
one in a map from labels, and all operations on amounts but one stop at the largest or the smallest amount.
The one is the sum of what the frames that a frame called used. It overflows if they used too much
(`gasProfile_overflow_iff`), and all else comes out as it does with numbers (`profiled_of_gasProfile`).
-/

namespace TxTrace

/-- The gas that a frame used is that of its steps. -/
def Frame.Metered (steps : Array Step) (f : Frame) : Prop := f.gasUsed = gasBetween steps f.start f.stop

theorem Frame.metered_of_stop {steps : Array Step} {f : Frame} (hstop : f.stop = none) (hgas : f.gasUsed = 0) :
    f.Metered steps := by
  rw [Metered, hgas, hstop]
  unfold gasBetween
  cases steps[f.start]? <;> rfl

theorem Frame.Change.metered {steps : Array Step} {f f' : Frame} (h : f.Change steps f')
    (hf : f.Metered steps) : f'.Metered steps := by
  cases h with
  | finish ending => rfl
  | _ => exact hf

namespace CallTree

theorem metered_named_ofTrace (tx : Transaction) (trace : Trace) (r : Registry) :
    ∀ f ∈ ((ofTrace tx trace).1.named r).1.frames, f.Metered trace.steps := by
  intro f hf
  obtain ⟨id, hid⟩ := Array.mem_iff_getElem?.1 hf
  have hid : ((ofTrace tx trace).1.named r).1.frame? id = some f := hid
  rw [frame?_named_ofTrace] at hid
  obtain ⟨g, hg, rfl⟩ := Option.map_eq_some_iff.1 hid
  have hmetered : g.Metered trace.steps := by
    refine Progress.forall_frames_closed tx trace ?_ ?_ (fun hchange h => hchange.metered h) hg
    · intro root hroot
      obtain rfl := Option.some.inj hroot
      exact Frame.metered_of_stop rfl rfl
    · intro b f hbegins parent level
      cases hbegins with
      | unseen => exact Frame.metered_of_stop rfl rfl
      | called status hs hran hkind => exact Frame.metered_of_stop rfl rfl
  unfold finalFrame
  split
  · -- Steps after the end of the outermost frame count as its own.
    unfold Progress.finishRoot
    cases htrailing : (Progress.closed tx trace).trailing with
    | none => exact hmetered
    | some trailing => rfl
  · exact hmetered

end CallTree

namespace Machine

/-! ### Operation by operation -/

/-- The gas between the step at `start` and the end of the step at `stop`. -/
def gasBetween (steps : Array Step) (start : Nat) (stop : Option Nat) : UInt64 :=
  match steps[start]?, stop.bind (steps[·]?) with
  | some first, some last => addSat (subSat first.gas last.gas) last.gasCost
  | _, _ => 0

/-! ### Amounts -/

theorem toNat_gasBetween (steps : Array Step) (start : Nat) (stop : Option Nat) :
    (gasBetween steps start stop).toNat = TxTrace.gasBetween steps start stop := by
  unfold gasBetween TxTrace.gasBetween
  cases steps[start]? with
  | none => rfl
  | some first =>
    cases stop.bind (steps[·]?) with
    | none => rfl
    | some last => exact (toNat_addSat _ _).trans (by rw [toNat_subSat])

theorem overflowsWhen_foldlM_add (amounts : List UInt64) (a : UInt64) :
    OverflowsWhen (ε := Empty) (max64 < a.toNat + sumGas (amounts.map (·.toNat))) (amounts.foldlM add a)
      (.ok (.ofNat (a.toNat + sumGas (amounts.map (·.toNat))))) := by
  induction amounts generalizing a with
  | nil =>
    refine .of_eq (Nat.not_lt.2 (toNat_le a)) ?_
    exact congrArg Except.ok UInt64.ofNat_toNat.symm
  | cons c amounts ih =>
    rw [List.foldlM_cons, List.map_cons, sumGas_cons, ← Nat.add_assoc]
    by_cases hc : a.toNat + c.toNat ≤ max64
    · have hrest := ih (a + c)
      rw [toNat_add hc] at hrest
      rwa [add_eq_ok hc, ok_bind]
    · have hfault : add (ε := Empty) a c = .error (.fault .overflow) := if_neg hc
      refine ⟨fun _ => by rw [hfault]; rfl, fun hnot => ?_⟩
      omega

variable {tree : CallTree}

theorem overflowsWhen_sum (hgas : ∀ f ∈ tree.frames, f.gasUsed ≤ max64) (f : Frame) :
    OverflowsWhen (max64 < tree.calledGas f) (sum ((tree.children f).map fun c => .ofNat c.gasUsed))
      (.ok (.ofNat (tree.calledGas f))) := by
  have hamounts : ((tree.children f).map fun c => UInt64.ofNat c.gasUsed).map (·.toNat) =
      (tree.children f).map (·.gasUsed) := by
    rw [List.map_map]
    refine List.map_congr_left fun c hc => toNat_ofNat (hgas c ?_)
    obtain ⟨id, _, hid⟩ := List.mem_filterMap.1 hc
    exact Array.mem_of_getElem? hid
  have hsum := overflowsWhen_foldlM_add ((tree.children f).map fun c => .ofNat c.gasUsed) 0
  rw [hamounts, UInt64.toNat_zero, Nat.zero_add] at hsum
  exact hsum

/-! ### The frames of one function -/

/-- One more frame, by numbers. -/
def Tally.countFrame (tree : CallTree) (t : Tally) (f : Frame) : Tally :=
  t.count (.ofNat f.gasUsed) (.ofNat (tree.ownGas f))

/-- The second tally is the first one with the frames `fs` counted. -/
structure Tally.Counts (tree : CallTree) (fs : List Frame) (t t' : Tally) : Prop where
  calls : t'.calls = t.calls + fs.length
  total : t'.total.toNat = min (t.total.toNat + sumGas (fs.map (·.gasUsed))) max64
  own : t'.own.toNat = min (t.own.toNat + sumGas (fs.map tree.ownGas)) max64
  least : t'.least.toNat = (fs.map (·.gasUsed)).foldl min t.least.toNat
  greatest : t'.greatest.toNat = (fs.map (·.gasUsed)).foldl max t.greatest.toNat

theorem Tally.counts_foldl {fs : List Frame} (hgas : ∀ f ∈ fs, f.gasUsed ≤ max64) (t : Tally) :
    Counts tree fs t (fs.foldl (countFrame tree) t) := by
  induction fs generalizing t with
  | nil =>
    refine ⟨rfl, ?_, ?_, rfl, rfl⟩
    · exact (Nat.min_eq_left (toNat_le t.total)).symm
    · exact (Nat.min_eq_left (toNat_le t.own)).symm
  | cons f fs ih =>
    obtain ⟨hf, hfs⟩ := List.forall_mem_cons.1 hgas
    have hown : tree.ownGas f ≤ max64 := Nat.le_trans (Nat.sub_le _ _) hf
    have hrest := ih hfs (countFrame tree t f)
    constructor
    case calls =>
      rw [List.foldl_cons, hrest.calls, List.length_cons, Nat.add_comm fs.length 1, ← Nat.add_assoc]
      rfl
    case total =>
      rw [List.foldl_cons, hrest.total, countFrame, count, toNat_addSat, toNat_ofNat hf, List.map_cons,
        sumGas_cons]
      omega
    case own =>
      rw [List.foldl_cons, hrest.own, countFrame, count, toNat_addSat, toNat_ofNat hown, List.map_cons,
        sumGas_cons]
      omega
    case least =>
      rw [List.foldl_cons, hrest.least, countFrame, count, UInt64.toNat_min, toNat_ofNat hf]
      rfl
    case greatest =>
      rw [List.foldl_cons, hrest.greatest, countFrame, count, UInt64.toNat_max, toNat_ofNat hf]
      rfl

/-- The tally of the frames with a label gives the entry for it. -/
theorem entry_foldl (hgas : ∀ f ∈ tree.frames, f.gasUsed ≤ max64) (label : String) :
    ((tree.labelled label).foldl (Tally.countFrame tree) .empty).entry label tree.root.gasUsed =
      tree.functionGas label := by
  have hgroup : ∀ f ∈ tree.labelled label, f.gasUsed ≤ max64 := fun f hf =>
    hgas f (CallTree.mem_labelled_iff.1 hf).1
  have hcounts : Tally.Counts tree (tree.labelled label) .empty _ := Tally.counts_foldl hgroup .empty
  have hlast : Tally.empty.least.toNat = max64 := toNat_ofNat (Nat.le_refl _)
  rw [CallTree.functionGas, Tally.entry, hcounts.calls, hcounts.total, hcounts.own, hcounts.least,
    hcounts.greatest, hlast]
  simp only [Tally.empty, UInt64.toNat_zero, Nat.zero_add]

/-! ### The frames of all functions -/

namespace Groups

/-- One more frame, by numbers. -/
def countFrame (tree : CallTree) (groups : Groups) (f : Frame) : Groups :=
  groups.count f.label (.ofNat f.gasUsed) (.ofNat (tree.ownGas f))

/-- Of the frames `fs`, each is counted under its label, in order. -/
structure Counts (tree : CallTree) (fs : List Frame) (groups : Groups) : Prop where
  mem_iff : ∀ label, label ∈ groups ↔ ∃ f ∈ fs, f.label = label
  tally : ∀ label, groups.tally label =
    (fs.filter (·.label == label)).foldl (Tally.countFrame tree) .empty

theorem counts_empty (tree : CallTree) : Counts tree [] ∅ where
  mem_iff label := by simp
  tally label := Std.TreeMap.getD_emptyc

theorem Counts.countFrame {fs : List Frame} {groups : Groups} (h : Counts tree fs groups) (f : Frame) :
    Counts tree (fs ++ [f]) (groups.countFrame tree f) := by
  constructor
  case mem_iff =>
    intro label
    rw [Groups.countFrame, count, Std.TreeMap.mem_insert, Std.compare_eq_iff_eq, h.mem_iff]
    simp [or_comm]
  case tally =>
    intro label
    rw [List.filter_append, List.foldl_append, ← h.tally label, Groups.tally, Groups.countFrame, count,
      Std.TreeMap.getD_insert]
    by_cases hlabel : f.label = label
    · subst hlabel
      simp [Tally.countFrame]
    · simp [hlabel]
      rfl

theorem Counts.foldl {fs fs' : List Frame} {groups : Groups} (h : Counts tree fs groups) :
    Counts tree (fs ++ fs') (fs'.foldl (Groups.countFrame tree) groups) := by
  induction fs' generalizing fs groups with
  | nil => rwa [List.append_nil]
  | cons f fs' ih =>
    rw [List.foldl_cons, List.append_cons]
    exact ih (h.countFrame f)

theorem counts_foldl (tree : CallTree) :
    Counts tree tree.frames.toList (tree.frames.toList.foldl (Groups.countFrame tree) ∅) :=
  (counts_empty tree).foldl

/-- Just the labels of frames have entries. -/
theorem Counts.perm_entries {groups : Groups} (h : Counts tree tree.frames.toList groups)
    (hgas : ∀ f ∈ tree.frames, f.gasUsed ≤ max64) :
    (groups.toList.map fun (label, t) => t.entry label tree.root.gasUsed).Perm
      (tree.labels.map tree.functionGas) := by
  have hentries : (groups.toList.map fun (label, t) => t.entry label tree.root.gasUsed) =
      groups.keys.map tree.functionGas := by
    rw [← Std.TreeMap.map_fst_toList_eq_keys, List.map_map]
    refine List.map_congr_left fun (label, t) ht => ?_
    have htally : groups.tally label = t := by
      rw [Groups.tally, Std.TreeMap.getD_eq_getD_getElem?,
        Std.TreeMap.mem_toList_iff_getElem?_eq_some.1 ht, Option.getD_some]
    rw [← htally, h.tally label]
    exact entry_foldl hgas label
  have hkeys : groups.keys.Perm tree.labels := by
    rw [List.perm_ext_iff_of_nodup Std.TreeMap.nodup_keys tree.nodup_labels]
    intro label
    rw [Std.TreeMap.mem_keys, h.mem_iff, CallTree.mem_labels_iff]
    simp only [Array.mem_toList_iff]
  rw [hentries]
  exact hkeys.map _

end Groups

theorem overflowsWhen_countFrame (hgas : ∀ f ∈ tree.frames, f.gasUsed ≤ max64) {f : Frame}
    (hf : f ∈ tree.frames) (groups : Groups) :
    OverflowsWhen (max64 < tree.calledGas f) (countFrame tree groups f)
      (.ok (groups.countFrame tree f)) := by
  refine (overflowsWhen_sum hgas f).bind_of_not fun hsmall => ?_
  have hle : tree.ownGas f ≤ max64 := Nat.le_trans (Nat.sub_le _ _) (hgas f hf)
  have hown : subSat (.ofNat f.gasUsed) (.ofNat (tree.calledGas f)) = .ofNat (tree.ownGas f) := by
    apply UInt64.toNat_inj.1
    rw [toNat_subSat, toNat_ofNat (hgas f hf), toNat_ofNat (Nat.not_lt.1 hsmall), toNat_ofNat hle]
    rfl
  exact congrArg (fun own => Except.ok (groups.count f.label (.ofNat f.gasUsed) own)) hown

/-- Entries of the same labels come in one order alone. -/
theorem mergeSort_eq_gasProfile {entries : List FunctionGas}
    (hperm : entries.Perm (tree.labels.map tree.functionGas)) :
    entries.mergeSort FunctionGas.precedes = tree.gasProfile := by
  have hsorted (l : List FunctionGas) :
      (l.mergeSort FunctionGas.precedes).Pairwise fun a b => a.precedes b :=
    List.pairwise_mergeSort FunctionGas.precedes_trans FunctionGas.precedes_total l
  refine List.Perm.eq_of_pairwise ?_ (hsorted _) (hsorted _)
    ((List.mergeSort_perm _ _).trans (hperm.trans (List.mergeSort_perm _ _).symm))
  intro a b ha hb hab hba
  obtain ⟨label, -, rfl⟩ := List.mem_map.1 (hperm.mem_iff.1 (List.mem_mergeSort.1 ha))
  obtain ⟨label', -, rfl⟩ := List.mem_map.1 (List.mem_mergeSort.1 hb)
  have hlabel : label = label' := FunctionGas.label_eq_of_precedes hab hba
  rw [hlabel]

/-- Only the sum of what called frames used can overflow. -/
theorem overflowsWhen_gasProfile (hgas : ∀ f ∈ tree.frames, f.gasUsed ≤ max64) :
    OverflowsWhen (∃ f ∈ tree.frames, max64 < tree.calledGas f) (gasProfile tree) (.ok tree.gasProfile) := by
  have hcount : OverflowsWhen (∃ f ∈ tree.frames, max64 < tree.calledGas f)
      (tree.frames.toList.foldlM (countFrame tree) ∅)
      (.ok (tree.frames.toList.foldl (Groups.countFrame tree) ∅)) := by
    refine (OverflowsWhen.foldlM (fun f hf groups =>
      overflowsWhen_countFrame hgas (Array.mem_toList_iff.1 hf) groups) ∅).congr ?_
    simp only [Array.mem_toList_iff]
  exact hcount.bind_of_not fun _ => congrArg Except.ok
    (mergeSort_eq_gasProfile ((Groups.counts_foldl tree).perm_entries hgas))

/-- The profile of a tree groups its frames by label, unless the frames that one frame called used more gas
    than 64 bits hold. -/
theorem profiled_of_gasProfile {tree : CallTree} (hgas : ∀ f ∈ tree.frames, f.gasUsed ≤ max64)
    (hcalled : ∀ f ∈ tree.frames, sumGas ((tree.children f).map (·.gasUsed)) ≤ max64) :
    gasProfile tree = .ok tree.gasProfile ∧ tree.Profiled tree.gasProfile := by
  have hsmall : ¬ ∃ f ∈ tree.frames, max64 < tree.calledGas f := fun ⟨f, hf, hlarge⟩ =>
    Nat.not_lt.2 (hcalled f hf) hlarge
  exact ⟨(overflowsWhen_gasProfile hgas).eq hsmall, CallTree.profiled_gasProfile hgas⟩

/-- A function calls another one twice. -/
def repeatedTree : CallTree where
  frames :=
    #[{ parent := none, children := #[1, 2], callType := .call, level := 0, start := 0, gasUsed := 50,
        naming := ⟨some "Hub", "run", none, none⟩ },
      { parent := some 0, callType := .call, level := 1, start := 1, gasUsed := 20,
        naming := ⟨some "Leaf", "ping", none, none⟩ },
      { parent := some 0, callType := .call, level := 1, start := 3, gasUsed := 40,
        naming := ⟨some "Leaf", "ping", none, none⟩ }]
  owners := #[]
  frames_pos := by decide

theorem profiled_of_gasProfile_repeatedTree :
    repeatedTree.labels = ["Hub.run", "Leaf.ping"] ∧ gasProfile repeatedTree = .ok repeatedTree.gasProfile ∧
      repeatedTree.Profiled repeatedTree.gasProfile := by
  have hgas : ∀ f ∈ repeatedTree.frames, f.gasUsed ≤ max64 := by decide
  have hcalled : ∀ f ∈ repeatedTree.frames, sumGas ((repeatedTree.children f).map (·.gasUsed)) ≤ max64 := by
    decide
  exact ⟨by decide +kernel, profiled_of_gasProfile hgas hcalled⟩

/-- The gas of frames is counted in 64 bits, as it is with numbers. Their profile overflows just if the
    frames that one frame called used more gas than 64 bits hold, and is as it is with numbers if not. -/
theorem gasProfile_overflow_iff (tx : Transaction) (trace : Trace) (r : Registry) :
    let tree := ((CallTree.ofTrace tx trace).1.named r).1
    (∀ f ∈ tree.frames, f.gasUsed = (gasBetween trace.steps f.start f.stop).toNat) ∧
      (gasProfile tree = .error (.fault .overflow) ↔
        ∃ f ∈ tree.frames, max64 < sumGas ((tree.children f).map (·.gasUsed))) ∧
      (gasProfile tree = .error (.fault .overflow) ∨ gasProfile tree = .ok tree.gasProfile) := by
  intro tree
  have hmetered : ∀ f ∈ tree.frames, f.gasUsed = (gasBetween trace.steps f.start f.stop).toNat := fun f hf =>
    (CallTree.metered_named_ofTrace tx trace r f hf).trans (toNat_gasBetween trace.steps f.start f.stop).symm
  have hgas : ∀ f ∈ tree.frames, f.gasUsed ≤ max64 := by
    intro f hf
    rw [hmetered f hf]
    exact toNat_le _
  have hprofile := overflowsWhen_gasProfile hgas
  refine ⟨hmetered, hprofile.fault_iff, ?_⟩
  by_cases hlarge : ∃ f ∈ tree.frames, max64 < tree.calledGas f
  · exact .inl (hprofile.fault hlarge)
  · exact .inr (hprofile.eq hlarge)

/-- A contract calls another one twice, which uses all the gas there can be and then 1. -/
def hugeCosts : Trace where
  steps :=
    #[⟨0, "CALL", 1, 100, 10, [50, 0xcc, 0, 0, 0, 0, 0], none, none, none, none⟩,
      ⟨0, "STOP", 2, 0, last, [], none, none, none, none⟩,
      ⟨1, "CALL", 1, 60, 10, [50, 0xcc, 0, 0, 0, 0, 0], none, none, none, none⟩,
      ⟨0, "STOP", 2, 0, 1, [], none, none, none, none⟩,
      ⟨2, "STOP", 1, 50, 0, [1], none, none, none, none⟩]
  dropped := []
  gasUsed := none
  failed := none
  returnValue := none
  depth_le := by simp [maxCallDepth]

/-- The gas of frames can overflow. -/
theorem not_forall_gasProfile_ne_fault :
    ¬ ∀ (tx : Transaction) (trace : Trace) (r : Registry),
        gasProfile ((CallTree.ofTrace tx trace).1.named r).1 ≠ .error (.fault .overflow) := by
  intro h
  refine h ⟨none, 0xee, some 0xbb, [], 0, 0, 0, none, none⟩ hugeCosts Registry.empty
    ((overflowsWhen_gasProfile ?_).fault ?_)
  · decide +kernel
  · decide +kernel

end Machine

end TxTrace

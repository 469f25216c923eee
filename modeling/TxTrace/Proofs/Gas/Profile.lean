import Mathlib.Data.List.Perm.Basic
import TxTrace.CallTree.Gas

/-!
The gas of a transaction by function, in numbers of any size, against the frames of its tree. Each entry of a
profile sums up the frames with its label, no frame is left out, and entries stand in a strict order
(`CallTree.profiled_gasProfile`).
-/

namespace TxTrace

/-! ### Sums -/

/-- The sum of amounts of gas. -/
def sumGas (amounts : List Nat) : Nat := amounts.foldr (· + ·) 0

@[simp]
theorem sumGas_nil : sumGas [] = 0 := rfl

@[simp]
theorem sumGas_cons (a : Nat) (as : List Nat) : sumGas (a :: as) = a + sumGas as := rfl

@[simp]
theorem sumGas_append (as bs : List Nat) : sumGas (as ++ bs) = sumGas as + sumGas bs := by
  induction as with
  | nil => simp
  | cons a as ih => rw [List.cons_append, sumGas_cons, ih, sumGas_cons, Nat.add_assoc]

theorem sumGas_perm {as bs : List Nat} (h : as.Perm bs) : sumGas as = sumGas bs := h.foldr_eq 0

theorem sumGas_flatMap {α : Type} (l : List α) (g : α → List Nat) :
    sumGas (l.flatMap g) = sumGas (l.map fun a => sumGas (g a)) := by
  induction l with
  | nil => rfl
  | cons a l ih => rw [List.flatMap_cons, sumGas_append, ih, List.map_cons, sumGas_cons]

theorem le_sumGas_of_mem {n : Nat} {as : List Nat} (h : n ∈ as) : n ≤ sumGas as := by
  induction h with
  | head as => exact Nat.le_add_right n _
  | tail a _ ih => exact Nat.le_trans ih (Nat.le_add_left _ a)

theorem sumGas_map_le {α : Type} {l : List α} {f g : α → Nat} (h : ∀ a ∈ l, f a ≤ g a) :
    sumGas (l.map f) ≤ sumGas (l.map g) := by
  induction l with
  | nil => exact Nat.le_refl _
  | cons a l ih =>
    obtain ⟨ha, hl⟩ := List.forall_mem_cons.1 h
    exact Nat.add_le_add ha (ih hl)

theorem sumGas_map_const {α : Type} (l : List α) (n : Nat) : sumGas (l.map fun _ => n) = n * l.length := by
  induction l with
  | nil => rfl
  | cons a l ih => rw [List.map_cons, sumGas_cons, ih, List.length_cons, Nat.mul_succ, Nat.add_comm]

/-- The least of some amounts that are no larger than `n`. -/
theorem foldl_min_spec {n : Nat} {as : List Nat} (hne : as ≠ []) (hle : ∀ a ∈ as, a ≤ n) :
    as.foldl min n ∈ as ∧ ∀ a ∈ as, as.foldl min n ≤ a := by
  obtain ⟨least, hleast⟩ := Option.isSome_iff_exists.1 (List.isSome_min?_of_ne_nil hne)
  have hmin : as.foldl min n = least := by
    rw [List.foldl_min, hleast, Option.getD_some]
    exact Nat.min_eq_right (hle _ (List.min?_eq_some_iff.1 hleast).1)
  rw [hmin]
  exact List.min?_eq_some_iff.1 hleast

/-- The greatest of some amounts. -/
theorem foldl_max_spec {as : List Nat} (hne : as ≠ []) :
    as.foldl max 0 ∈ as ∧ ∀ a ∈ as, a ≤ as.foldl max 0 := by
  obtain ⟨greatest, hgreatest⟩ := Option.isSome_iff_exists.1 (List.isSome_max?_of_ne_nil hne)
  have hmax : as.foldl max 0 = greatest := by
    rw [List.foldl_max, hgreatest, Option.getD_some, Nat.zero_max]
  rw [hmax]
  exact List.max?_eq_some_iff.1 hgreatest

/-! ### Groups -/

theorem nodup_eraseDups : (l : List String) → l.eraseDups.Nodup
  | [] => List.nodup_nil
  | a :: l => by
    rw [List.eraseDups_cons, List.nodup_cons, List.mem_eraseDups]
    exact ⟨by simp, nodup_eraseDups _⟩
termination_by l => l.length
decreasing_by exact Nat.lt_succ_of_le (List.length_filter_le _ l)

/-- The groups of a list by a key are the list, in another order. -/
theorem perm_flatMap_filter {α : Type} (key : α → String) {keys : List String} (hkeys : keys.Nodup)
    {l : List α} (hl : ∀ a ∈ l, key a ∈ keys) :
    (keys.flatMap fun k => l.filter (key · == k)).Perm l := by
  induction keys generalizing l with
  | nil =>
    obtain rfl : l = [] := List.eq_nil_iff_forall_not_mem.2 fun a ha => List.not_mem_nil (hl a ha)
    exact .nil
  | cons k keys ih =>
    obtain ⟨hk, hkeys⟩ := List.nodup_cons.1 hkeys
    have hother : keys.flatMap (fun k' => l.filter (key · == k')) =
        keys.flatMap fun k' => (l.filter (!key · == k)).filter (key · == k') := by
      refine List.flatMap_congr fun k' hk' => ?_
      rw [List.filter_filter]
      refine List.filter_congr fun a _ => ?_
      by_cases hkey : key a = k'
      · have hne : k' ≠ k := fun heq => hk (heq ▸ hk')
        simp [hkey, hne]
      · simp [hkey]
    have hrest : ∀ a ∈ l.filter (!key · == k), key a ∈ keys := by
      intro a ha
      obtain ⟨ha, hne⟩ := List.mem_filter.1 ha
      exact (List.mem_cons.1 (hl a ha)).resolve_left (by simpa using hne)
    rw [List.flatMap_cons, hother]
    exact ((ih hkeys hrest).append_left _).trans (List.filter_append_perm _ l)

namespace FunctionGas

theorem precedes_trans (a b c : FunctionGas) (hab : a.precedes b) (hbc : b.precedes c) :
    a.precedes c := by
  simp only [precedes, Bool.or_eq_true, Bool.and_eq_true, decide_eq_true_eq, beq_iff_eq,
    Bool.not_eq_eq_eq_not, Bool.not_true, decide_eq_false_iff_not, String.not_lt] at hab hbc ⊢
  rcases hab with hab | ⟨hab, hlabel⟩ <;> rcases hbc with hbc | ⟨hbc, hlabel'⟩
  · exact .inl (Nat.lt_trans hbc hab)
  · exact .inl (hbc ▸ hab)
  · exact .inl (hab ▸ hbc)
  · exact .inr ⟨hab.trans hbc, String.le_trans hlabel hlabel'⟩

theorem precedes_total (a b : FunctionGas) : (a.precedes b || b.precedes a) = true := by
  simp only [precedes, Bool.or_eq_true, Bool.and_eq_true, decide_eq_true_eq, beq_iff_eq,
    Bool.not_eq_eq_eq_not, Bool.not_true, decide_eq_false_iff_not, String.not_lt]
  rcases Nat.lt_trichotomy a.totalGas b.totalGas with hlt | heq | hlt
  · exact .inr (.inl hlt)
  · exact (String.le_total a.label b.label).imp (fun h => .inr ⟨heq, h⟩) fun h => .inr ⟨heq.symm, h⟩
  · exact .inl (.inl hlt)

/-- An entry with more gas stands before one with less, and of two with as much the one with the smaller
    label. -/
def Precedes (a b : FunctionGas) : Prop :=
  b.totalGas < a.totalGas ∨ a.totalGas = b.totalGas ∧ a.label < b.label

theorem Precedes.of_precedes {a b : FunctionGas} (h : a.precedes b) (hlabel : a.label ≠ b.label) :
    a.Precedes b := by
  simp only [precedes, Bool.or_eq_true, Bool.and_eq_true, decide_eq_true_eq, beq_iff_eq,
    Bool.not_eq_eq_eq_not, Bool.not_true, decide_eq_false_iff_not, String.not_lt] at h
  refine h.imp_right fun ⟨hgas, hle⟩ => ⟨hgas, ?_⟩
  by_contra hlt
  exact hlabel (String.le_antisymm hle (String.not_lt.1 hlt))

theorem label_eq_of_precedes {a b : FunctionGas} (hab : a.precedes b) (hba : b.precedes a) :
    a.label = b.label := by
  by_contra hlabel
  rcases Precedes.of_precedes hab hlabel with hlt | ⟨heq, hlt⟩ <;>
    rcases Precedes.of_precedes hba (Ne.symm hlabel) with hlt' | ⟨heq', hlt'⟩
  · omega
  · omega
  · omega
  · exact absurd hlt' (String.lt_asymm hlt)

end FunctionGas

/-! ### Frames by label -/

namespace CallTree

variable {tree : CallTree} {e : FunctionGas}

/-- The gas of the frames that a frame called. -/
def calledGas (tree : CallTree) (f : Frame) : Nat := sumGas ((tree.children f).map (·.gasUsed))

/-- The gas of a frame without that of the frames that it called. -/
def ownGas (tree : CallTree) (f : Frame) : Nat := f.gasUsed - tree.calledGas f

/-- The frames with a label, in their order. -/
def labelled (tree : CallTree) (label : String) : List Frame :=
  tree.frames.toList.filter (·.label == label)

/-- The labels of the frames, each once. -/
def labels (tree : CallTree) : List String := (tree.frames.toList.map Frame.label).eraseDups

/-- The entry for a label. Sums stop at the largest number of 64 bits. -/
def functionGas (tree : CallTree) (label : String) : FunctionGas :=
  let amounts := (tree.labelled label).map (·.gasUsed)
  let total := min (sumGas amounts) max64
  { label
    calls := (tree.labelled label).length
    totalGas := total
    selfGas := min (sumGas ((tree.labelled label).map tree.ownGas)) max64
    minGas := amounts.foldl min max64
    maxGas := amounts.foldl max 0
    avgGas := total / max (tree.labelled label).length 1
    percentage := gasPercentage total tree.root.gasUsed }

/-- The gas of each function, the heaviest first. -/
def gasProfile (tree : CallTree) : List FunctionGas :=
  (tree.labels.map tree.functionGas).mergeSort FunctionGas.precedes

/-- The entry sums up the frames with its label. Sums stop at the largest number of 64 bits. -/
structure SumsUp (tree : CallTree) (e : FunctionGas) : Prop where
  calls : e.calls = (tree.labelled e.label).length
  totalGas : e.totalGas = min (sumGas ((tree.labelled e.label).map (·.gasUsed))) max64
  selfGas : e.selfGas = min (sumGas ((tree.labelled e.label).map tree.ownGas)) max64
  minGas : (∃ f ∈ tree.labelled e.label, f.gasUsed = e.minGas) ∧
    ∀ f ∈ tree.labelled e.label, e.minGas ≤ f.gasUsed
  maxGas : (∃ f ∈ tree.labelled e.label, f.gasUsed = e.maxGas) ∧
    ∀ f ∈ tree.labelled e.label, f.gasUsed ≤ e.maxGas
  avgGas : e.avgGas = e.totalGas / e.calls
  avgGas_bounds : sumGas ((tree.labelled e.label).map (·.gasUsed)) ≤ max64 →
    e.minGas ≤ e.avgGas ∧ e.avgGas ≤ e.maxGas

/-- The profile has one entry for each label of a frame, which sums up the frames with that label, and the
    heaviest entries stand first. -/
structure Profiled (tree : CallTree) (profile : List FunctionGas) : Prop where
  labels_nodup : (profile.map (·.label)).Nodup
  mem_labels_iff : ∀ label, label ∈ profile.map (·.label) ↔ ∃ f ∈ tree.frames, f.label = label
  calls : sumGas (profile.map (·.calls)) = tree.frames.size
  sumsUp : ∀ e ∈ profile, tree.SumsUp e
  sorted : profile.Pairwise FunctionGas.Precedes

theorem mem_labelled_iff {label : String} {f : Frame} :
    f ∈ tree.labelled label ↔ f ∈ tree.frames ∧ f.label = label := by
  rw [labelled, List.mem_filter, Array.mem_toList_iff, beq_iff_eq]

theorem mem_labels_iff {label : String} : label ∈ tree.labels ↔ ∃ f ∈ tree.frames, f.label = label := by
  simp [labels]

theorem nodup_labels (tree : CallTree) : tree.labels.Nodup := nodup_eraseDups _

/-- Every frame stands in the group of one label. -/
theorem perm_flatMap_labelled (tree : CallTree) :
    (tree.labels.flatMap tree.labelled).Perm tree.frames.toList :=
  perm_flatMap_filter Frame.label tree.nodup_labels fun f hf =>
    mem_labels_iff.2 ⟨f, Array.mem_toList_iff.1 hf, rfl⟩

/-- Sums over the frames are sums over the groups. -/
theorem sumGas_labels (tree : CallTree) (amount : Frame → Nat) :
    sumGas (tree.labels.map fun label => sumGas ((tree.labelled label).map amount)) =
      sumGas (tree.frames.toList.map amount) := by
  rw [← sumGas_perm (tree.perm_flatMap_labelled.map amount), List.map_flatMap, sumGas_flatMap]

theorem perm_gasProfile (tree : CallTree) :
    tree.gasProfile.Perm (tree.labels.map tree.functionGas) := List.mergeSort_perm _ _

theorem mem_gasProfile_iff : e ∈ tree.gasProfile ↔ ∃ label ∈ tree.labels, tree.functionGas label = e := by
  rw [tree.perm_gasProfile.mem_iff, List.mem_map]

theorem labels_perm (tree : CallTree) : (tree.gasProfile.map (·.label)).Perm tree.labels := by
  have hperm := tree.perm_gasProfile.map (·.label)
  rwa [List.map_map, show (FunctionGas.label ∘ tree.functionGas) = id from rfl, List.map_id] at hperm

theorem sumsUp_functionGas (hgas : ∀ f ∈ tree.frames, f.gasUsed ≤ max64) {label : String}
    (hlabel : label ∈ tree.labels) :
    tree.SumsUp (tree.functionGas label) := by
  obtain ⟨g, hg, hglabel⟩ := mem_labels_iff.1 hlabel
  have hgroup : g ∈ tree.labelled label := mem_labelled_iff.2 ⟨hg, hglabel⟩
  have hpos : 0 < (tree.labelled label).length := List.length_pos_of_mem hgroup
  have hne : (tree.labelled label).map (·.gasUsed) ≠ [] :=
    List.ne_nil_of_mem (List.mem_map_of_mem hgroup)
  have hle : ∀ n ∈ (tree.labelled label).map (·.gasUsed), n ≤ max64 := by
    intro n hn
    obtain ⟨f, hf, rfl⟩ := List.mem_map.1 hn
    exact hgas f (mem_labelled_iff.1 hf).1
  have hmin := foldl_min_spec hne hle
  have hmax := foldl_max_spec hne
  have hleast : ∀ f ∈ tree.labelled label, ((tree.labelled label).map (·.gasUsed)).foldl min max64 ≤ f.gasUsed :=
    fun f hf => hmin.2 _ (List.mem_map_of_mem hf)
  have hgreatest : ∀ f ∈ tree.labelled label, f.gasUsed ≤ ((tree.labelled label).map (·.gasUsed)).foldl max 0 :=
    fun f hf => hmax.2 _ (List.mem_map_of_mem hf)
  have havg : (tree.functionGas label).avgGas =
      (tree.functionGas label).totalGas / (tree.labelled label).length :=
    congrArg ((tree.functionGas label).totalGas / ·) (Nat.max_eq_left hpos)
  constructor
  case calls => rfl
  case totalGas => rfl
  case selfGas => rfl
  case minGas => exact ⟨List.mem_map.1 hmin.1, hleast⟩
  case maxGas => exact ⟨List.mem_map.1 hmax.1, hgreatest⟩
  case avgGas => exact havg
  case avgGas_bounds =>
    intro hfits
    have hlow := sumGas_map_le hleast
    have hhigh := sumGas_map_le hgreatest
    rw [sumGas_map_const] at hlow hhigh
    have htotal : (tree.functionGas label).totalGas = sumGas ((tree.labelled label).map (·.gasUsed)) :=
      Nat.min_eq_left hfits
    rw [havg, htotal]
    exact ⟨(Nat.le_div_iff_mul_le hpos).2 hlow, Nat.div_le_of_le_mul (by rwa [Nat.mul_comm])⟩

theorem profiled_gasProfile (hgas : ∀ f ∈ tree.frames, f.gasUsed ≤ max64) :
    tree.Profiled tree.gasProfile := by
  have hnodup : (tree.gasProfile.map (·.label)).Nodup := tree.labels_perm.nodup_iff.2 tree.nodup_labels
  have hsumsUp : ∀ e ∈ tree.gasProfile, tree.SumsUp e := by
    intro e he
    obtain ⟨label, hlabel, rfl⟩ := mem_gasProfile_iff.1 he
    exact sumsUp_functionGas hgas hlabel
  constructor
  case labels_nodup => exact hnodup
  case mem_labels_iff => exact fun label => tree.labels_perm.mem_iff.trans mem_labels_iff
  case calls =>
    have hlength := tree.perm_flatMap_labelled.length_eq
    rw [List.length_flatMap, Array.length_toList] at hlength
    rw [← hlength, sumGas_perm (tree.perm_gasProfile.map (·.calls)), List.map_map]
    simp only [Function.comp_def, functionGas]
    rfl
  case sumsUp => exact hsumsUp
  case sorted =>
    have hsorted : tree.gasProfile.Pairwise fun a b => a.precedes b :=
      List.pairwise_mergeSort FunctionGas.precedes_trans FunctionGas.precedes_total _
    exact hsorted.imp₂ (fun _ _ h hne => .of_precedes h hne) (List.pairwise_map.1 hnodup)

end CallTree

end TxTrace

import Mathlib.Data.List.Nodup
import TxTrace.Json.Basic

/-!
Fields sorted by key. Of fields with one key only the last is kept, so that nothing is lost of fields whose keys
are all different (`perm_sortFields`), and they are known again from their sorted form
(`eq_of_sortFields_eq`).
-/

namespace TxTrace.Json

variable {α : Type} {fields fields' : List (String × α)}

theorem sublist_keepLast (fields : List (String × α)) : (sortFields.keepLast fields).Sublist fields := by
  fun_induction sortFields.keepLast fields with
  | case1 a b rest hkey ih => exact ih.cons a
  | case2 a b rest hkey ih => exact ih.cons_cons a
  | case3 fields => exact List.Sublist.refl fields

theorem mem_map_fst_keepLast_iff {key : String} :
    key ∈ (sortFields.keepLast fields).map (·.1) ↔ key ∈ fields.map (·.1) := by
  fun_induction sortFields.keepLast fields with
  | case1 a b rest hkey ih =>
    rw [ih, List.map_cons, List.map_cons, List.map_cons, hkey]
    simp only [List.mem_cons, or_self_left]
  | case2 a b rest hkey ih => rw [List.map_cons, List.map_cons, List.mem_cons, List.mem_cons, ih]
  | case3 fields => rfl

theorem mem_of_mem_sortFields {field : String × α} (h : field ∈ sortFields fields) : field ∈ fields :=
  List.mem_mergeSort.1 ((sublist_keepLast _).subset h)

/-- Sorting drops no key. -/
theorem mem_map_fst_sortFields_iff {key : String} :
    key ∈ (sortFields fields).map (·.1) ↔ key ∈ fields.map (·.1) := by
  rw [sortFields, mem_map_fst_keepLast_iff]
  exact ((List.mergeSort_perm _ _).map _).mem_iff

theorem keepLast_eq_self (h : (fields.map (·.1)).Nodup) : sortFields.keepLast fields = fields := by
  fun_induction sortFields.keepLast fields with
  | case1 a b rest hkey ih => simp [hkey] at h
  | case2 a b rest hkey ih => rw [ih (List.nodup_cons.1 h).2]
  | case3 fields => rfl

/-- Fields with different keys are all kept. -/
theorem perm_sortFields (h : (fields.map (·.1)).Nodup) : (sortFields fields).Perm fields := by
  have hperm := List.mergeSort_perm fields fun a b => !decide (b.1 < a.1)
  rw [sortFields, keepLast_eq_self ((hperm.map (·.1)).nodup_iff.2 h)]
  exact hperm

/-- Fields with different keys stand in one order only. -/
theorem eq_of_perm_of_map_fst_eq (h : (fields.map (·.1)).Nodup) (hperm : fields.Perm fields')
    (hkeys : fields.map (·.1) = fields'.map (·.1)) : fields = fields' := by
  induction fields generalizing fields' with
  | nil => exact (List.map_eq_nil_iff.1 hkeys.symm).symm
  | cons field rest ih =>
    cases fields' with
    | nil => cases hkeys
    | cons field' rest' =>
      have htail : rest.map (·.1) = rest'.map (·.1) := (List.cons.inj hkeys).2
      obtain ⟨hnotin, hnodup⟩ := List.nodup_cons.1 h
      -- the key of the first field is that of no other one
      have hmem : field = field' ∨ field ∈ rest' :=
        List.mem_cons.1 (hperm.mem_iff.1 List.mem_cons_self)
      obtain rfl : field = field' := by
        refine hmem.resolve_right fun hrest => hnotin ?_
        rw [htail]
        exact List.mem_map_of_mem hrest
      rw [ih hnodup ((List.perm_cons field).1 hperm) htail]

theorem eq_of_sortFields_eq (h : (fields.map (·.1)).Nodup) (hkeys : fields.map (·.1) = fields'.map (·.1))
    (hsort : sortFields fields = sortFields fields') : fields = fields' := by
  have hperm := perm_sortFields h
  rw [hsort] at hperm
  exact eq_of_perm_of_map_fst_eq h (hperm.symm.trans (perm_sortFields (hkeys ▸ h))) hkeys

end TxTrace.Json

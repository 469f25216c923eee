/-!
Values by key, in lists sorted by key. `find?_insert` says what a look-up finds after a change, and
`Sorted.insert` and `Sorted.erase` that the order is kept. In a sorted list a look-up finds what stands in it
(`Sorted.find?_eq_some_iff`).
-/

namespace TxTrace.Keyed

variable {n : Nat} {α : Type}

/-- Whether the keys of a list increase, so that no key stands in it twice. -/
def Sorted (entries : List (BitVec n × α)) : Prop := entries.Pairwise fun a b => a.1 < b.1

/-- The value of a key. -/
def find? (entries : List (BitVec n × α)) (key : BitVec n) : Option α :=
  (entries.find? (·.1 == key)).map (·.2)

/-- The list with `value` for `key`, in place of the value that the key had. -/
def insert (key : BitVec n) (value : α) : List (BitVec n × α) → List (BitVec n × α)
  | [] => [(key, value)]
  | e :: rest =>
    if key < e.1 then (key, value) :: e :: rest
    else if key = e.1 then (key, value) :: rest
    else e :: insert key value rest

/-- The list without a key. -/
def erase (key : BitVec n) (entries : List (BitVec n × α)) : List (BitVec n × α) :=
  entries.filter (·.1 != key)

theorem mem_insert {key : BitVec n} {value : α} {e : BitVec n × α}
    {entries : List (BitVec n × α)} (h : e ∈ insert key value entries) :
    e = (key, value) ∨ e ∈ entries := by
  induction entries with
  | nil => simpa [insert] using h
  | cons d rest ih =>
    simp only [insert] at h
    split at h
    · simpa using h
    · split at h
      · rcases List.mem_cons.1 h with h | h
        · exact .inl h
        · exact .inr (List.mem_cons_of_mem _ h)
      · rcases List.mem_cons.1 h with h | h
        · exact .inr (h ▸ List.mem_cons_self)
        · exact (ih h).imp_right (List.mem_cons_of_mem _)

theorem Sorted.insert {entries : List (BitVec n × α)} (h : Sorted entries) (key : BitVec n)
    (value : α) : Sorted (Keyed.insert key value entries) := by
  induction entries with
  | nil => simp [Sorted, Keyed.insert]
  | cons d rest ih =>
    obtain ⟨hd, hrest⟩ := List.pairwise_cons.1 h
    simp only [Keyed.insert]
    split
    · next hlt =>
      refine List.pairwise_cons.2 ⟨fun e he => ?_, h⟩
      rcases List.mem_cons.1 he with rfl | he
      · exact hlt
      · exact BitVec.lt_trans hlt (hd e he)
    · next hlt =>
      split
      · next heq => exact List.pairwise_cons.2 ⟨fun e he => heq ▸ hd e he, hrest⟩
      · next hne =>
        refine List.pairwise_cons.2 ⟨fun e he => ?_, ih hrest⟩
        rcases mem_insert he with rfl | he
        · exact BitVec.lt_of_le_ne (BitVec.not_lt.1 hlt) (Ne.symm hne)
        · exact hd e he

theorem Sorted.erase {entries : List (BitVec n × α)} (h : Sorted entries) (key : BitVec n) :
    Sorted (Keyed.erase key entries) :=
  List.Pairwise.filter _ h

/-- After a change a look-up finds the new value of that key, and the old one of every other. -/
theorem find?_insert (entries : List (BitVec n × α)) (key k : BitVec n) (value : α) :
    find? (insert key value entries) k = if key = k then some value else find? entries k := by
  induction entries with
  | nil => by_cases h : key = k <;> simp [insert, find?, h]
  | cons d rest ih =>
    simp only [insert]
    split
    · by_cases h : key = k <;> simp [find?, h]
    · split
      · next heq => by_cases h : key = k <;> simp_all [find?]
      · by_cases hd : d.1 = k
        · have hne : key ≠ k := by simp_all
          simp [find?, hd, hne]
        · have hskip : find? (d :: insert key value rest) k = find? (insert key value rest) k := by
            simp [find?, hd]
          rw [hskip, ih]
          simp [find?, hd]

variable {entries : List (BitVec n × α)} {key : BitVec n} {value : α}

theorem mem_of_find? (h : find? entries key = some value) : (key, value) ∈ entries := by
  obtain ⟨⟨key', value'⟩, he, rfl⟩ := Option.map_eq_some_iff.1 h
  obtain rfl : key' = key := by simpa using List.find?_some he
  exact List.mem_of_find?_eq_some he

namespace Sorted

/-- The keys in front of an entry are smaller. -/
theorem lt_of_append {before after : List (BitVec n × α)} {e : BitVec n × α}
    (h : Sorted (before ++ e :: after)) : ∀ d ∈ before, d.1 < e.1 :=
  fun d hd => (List.pairwise_append.1 h).2.2 d hd e List.mem_cons_self

theorem find?_eq_some_iff (h : Sorted entries) :
    find? entries key = some value ↔ (key, value) ∈ entries := by
  refine ⟨mem_of_find?, fun hmem => ?_⟩
  obtain ⟨before, after, rfl⟩ := List.append_of_mem hmem
  have hbefore : before.find? (·.1 == key) = none := by
    rw [List.find?_eq_none]
    intro d hd
    simpa using BitVec.ne_of_lt (h.lt_of_append d hd)
  rw [find?, List.find?_append, hbefore, Option.none_or, List.find?_cons, beq_self_eq_true]
  rfl

/-- The first value that is looked for is the one with the smallest key. -/
theorem find?_map_snd_eq_some_iff (h : Sorted entries) {p : α → Bool} :
    (entries.map (·.2)).find? p = some value ↔
      ∃ key, find? entries key = some value ∧ p value ∧
        ∀ k < key, ∀ v, find? entries k = some v → ¬ p v := by
  rw [List.find?_map]
  constructor
  · intro hfind
    obtain ⟨⟨key, value'⟩, he, rfl⟩ := Option.map_eq_some_iff.1 hfind
    obtain ⟨hp, before, after, rfl, hbefore⟩ := List.find?_eq_some_iff_append.1 he
    refine ⟨key, h.find?_eq_some_iff.2 (List.mem_of_find?_eq_some he), hp, fun k hlt v hv => ?_⟩
    rcases List.mem_append.1 (mem_of_find? hv) with hmem | hmem
    · simpa using hbefore (k, v) hmem
    · -- from the first such entry on, keys are no smaller
      rcases List.mem_cons.1 hmem with heq | hmem
      · cases heq
        exact absurd hlt (BitVec.lt_irrefl _)
      · have hgt := (List.pairwise_cons.1 (List.pairwise_append.1 h).2.1).1 (k, v) hmem
        exact absurd (BitVec.lt_trans hlt hgt) (BitVec.lt_irrefl _)
  · rintro ⟨key, hvalue, hp, hfirst⟩
    obtain ⟨before, after, rfl⟩ := List.append_of_mem (mem_of_find? hvalue)
    have hbefore : ∀ d ∈ before, ¬ p d.2 := by
      intro d hd
      exact hfirst d.1 (h.lt_of_append d hd) d.2 (h.find?_eq_some_iff.2 (List.mem_append_left _ hd))
    have hfind : (before ++ (key, value) :: after).find? (p ∘ (·.2)) = some (key, value) :=
      List.find?_eq_some_iff_append.2 ⟨hp, before, after, rfl, by simpa using hbefore⟩
    exact Option.map_eq_some_iff.2 ⟨(key, value), hfind, rfl⟩

end Sorted

end TxTrace.Keyed

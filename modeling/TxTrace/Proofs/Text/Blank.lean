import TxTrace.Text.Blank

/-!
Texts with white space. Trimming leaves a text alone that has none (`trim_eq_self`), also between white
space (`trim_append`).
-/

namespace TxTrace.Text

variable {cs : List Char}

theorem forall_isBlank_eq_false (h : cs.any isBlank = false) : ∀ c ∈ cs, isBlank c = false :=
  fun c hc => Bool.eq_false_iff.2 (List.any_eq_false.1 h c hc)

/-- The text without its white space. -/
def unspaced (cs : List Char) : List Char := cs.filter fun c => !isBlank c

theorem unspaced_append (xs ys : List Char) : unspaced (xs ++ ys) = unspaced xs ++ unspaced ys :=
  List.filter_append _ _

theorem unspaced_eq_self (hcs : ∀ c ∈ cs, isBlank c = false) : unspaced cs = cs :=
  List.filter_eq_self.2 fun c hc => by rw [hcs c hc]; rfl

theorem unspaced_reverse (cs : List Char) : unspaced cs.reverse = (unspaced cs).reverse :=
  List.filter_reverse

theorem unspaced_dropWhile (cs : List Char) : unspaced (cs.dropWhile isBlank) = unspaced cs := by
  induction cs with
  | nil => rfl
  | cons c cs ih =>
    by_cases hc : isBlank c
    · rw [List.dropWhile_cons_of_pos hc, ih, unspaced, unspaced, List.filter_cons_of_neg (by simp [hc])]
    · rw [List.dropWhile_cons_of_neg hc]

theorem unspaced_trim (cs : List Char) : unspaced (trim cs) = unspaced cs := by
  rw [trim, unspaced_reverse, unspaced_dropWhile, unspaced_reverse, unspaced_dropWhile,
    List.reverse_reverse]

theorem dropWhile_isBlank_eq_self (hcs : ∀ c ∈ cs, isBlank c = false) : cs.dropWhile isBlank = cs := by
  cases cs with
  | nil => rfl
  | cons c cs => rw [List.dropWhile_cons_of_neg (by simp [hcs c List.mem_cons_self])]

theorem trim_eq_self (hcs : ∀ c ∈ cs, isBlank c = false) : trim cs = cs := by
  have hreverse : ∀ c ∈ cs.reverse, isBlank c = false := fun c hc => hcs c (List.mem_reverse.1 hc)
  rw [trim, dropWhile_isBlank_eq_self hcs, dropWhile_isBlank_eq_self hreverse, List.reverse_reverse]

/-- White space around a text that has none goes. -/
theorem trim_append {before after : List Char} (hbefore : ∀ c ∈ before, isBlank c = true)
    (hcs : ∀ c ∈ cs, isBlank c = false) (hafter : ∀ c ∈ after, isBlank c = true) :
    trim (before ++ cs ++ after) = cs := by
  have hreverse : ∀ c ∈ cs.reverse, isBlank c = false := fun c hc => hcs c (List.mem_reverse.1 hc)
  have hafter' : ∀ c ∈ after.reverse, isBlank c = true := fun c hc => hafter c (List.mem_reverse.1 hc)
  rw [trim, List.append_assoc, List.dropWhile_append_of_pos hbefore]
  cases cs with
  | nil =>
    rw [List.nil_append, ← List.append_nil after, List.dropWhile_append_of_pos hafter]
    rfl
  | cons c cs =>
    rw [List.cons_append, List.dropWhile_cons_of_neg (by simp [hcs c List.mem_cons_self]), ← List.cons_append,
      List.reverse_append, List.dropWhile_append_of_pos hafter', dropWhile_isBlank_eq_self hreverse,
      List.reverse_reverse]

end TxTrace.Text

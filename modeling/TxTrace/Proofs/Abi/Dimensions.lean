import Mathlib.Data.List.TakeWhile
import TxTrace.Abi.Entry
import TxTrace.Proofs.Abi.Parsing

/-!
Array dimensions behind a type. They are put around a type from the left (`Ty.wrap?`), and the parser takes
them off a text from the right. Both give the same type (`Ty.withArraySuffix_iff_parse`).
-/

namespace TxTrace.Abi

namespace Ty

variable {ty e u : Ty} {cs dims dims' size after rest : List Char}

/-! ### Dimensions from the left -/

theorem wrap?_nil (ty : Ty) : ty.wrap? [] = some ty := by
  rw [wrap?]

theorem wrap?_brackets (hsize : ']' ∉ size) :
    ty.wrap? ('[' :: (size ++ ']' :: after)) = (ty.withSize? size).bind fun e => e.wrap? after := by
  have hne : ∀ c ∈ size, (c != ']') = true := by
    intro c hc
    rw [bne_iff_ne]
    rintro rfl
    exact hsize hc
  have hdrop : (size ++ ']' :: after).dropWhile (· != ']') = ']' :: after := by
    rw [List.dropWhile_append_of_pos hne, List.dropWhile_cons_of_neg (by simp)]
  have htake : (size ++ ']' :: after).takeWhile (· != ']') = size := by
    rw [List.takeWhile_append_of_pos hne, List.takeWhile_cons_of_neg (by simp), List.append_nil]
  rw [wrap?]
  split
  · next c after' h =>
    obtain ⟨-, rfl⟩ := List.cons.inj (hdrop.symm.trans h)
    rw [htake]
  · next h => cases hdrop.symm.trans h

/-- What stands before the dimensions that are put around a type. -/
theorem wrap?_eq_some_iff : ty.wrap? dims = some u ↔
    (dims = [] ∧ u = ty) ∨ ∃ size after e, dims = '[' :: (size ++ ']' :: after) ∧ ']' ∉ size ∧
      ty.withSize? size = some e ∧ e.wrap? after = some u := by
  constructor
  · intro h
    unfold wrap? at h
    split at h
    · exact .inl ⟨rfl, (Option.some.inj h).symm⟩
    · next rest =>
      split at h
      · next c after hdrop =>
        have hne : rest.dropWhile (· != ']') ≠ [] := by simp [hdrop]
        have hc : c = ']' := by simpa [hdrop] using List.head_dropWhile_not (· != ']') hne
        obtain ⟨e, hsize, hwrap⟩ := Option.bind_eq_some_iff.1 h
        refine .inr ⟨_, after, e, ?_, fun hmem => ?_, hsize, hwrap⟩
        · rw [hc] at hdrop
          rw [← hdrop, List.takeWhile_append_dropWhile]
        · exact absurd (List.mem_takeWhile_imp hmem) (by decide)
      · cases h
    · cases h
  · rintro (⟨rfl, rfl⟩ | ⟨size, after, e, rfl, hsize, he, hwrap⟩)
    · rw [wrap?]
    · rw [wrap?_brackets hsize, he, Option.bind_some, hwrap]

/-- Dimensions that are put around a type are put behind its spellings. -/
theorem Spells.append_of_wrap? (h : Spells Text.Padded ty cs) (hwrap : ty.wrap? dims = some u) :
    Spells Text.Padded u (cs ++ dims) := by
  induction hlen : dims.length using Nat.strongRecOn generalizing ty cs dims with
  | _ n ih =>
    subst hlen
    rcases wrap?_eq_some_iff.1 hwrap with ⟨rfl, rfl⟩ | ⟨size, after, e, rfl, -, hsize, hafter⟩
    · rwa [List.append_nil]
    · have he : Spells Text.Padded e (cs ++ '[' :: (size ++ [']'])) := by
        rcases withSize?_eq_some_iff.1 hsize with ⟨rfl, rfl⟩ | ⟨n, hn, rfl⟩
        · exact .array h
        · exact .fixedArray h hn
      have hlt : after.length < ('[' :: (size ++ ']' :: after)).length := by simp; omega
      have hspells := ih _ hlt he hafter rfl
      simpa using hspells

theorem wrap?_append (h : ty.wrap? dims = some e) : ty.wrap? (dims ++ dims') = e.wrap? dims' := by
  induction hlen : dims.length using Nat.strongRecOn generalizing ty dims with
  | _ n ih =>
    subst hlen
    rcases wrap?_eq_some_iff.1 h with ⟨rfl, rfl⟩ | ⟨size, after, e', rfl, hsize, he', hafter⟩
    · rfl
    · have hlt : after.length < ('[' :: (size ++ ']' :: after)).length := by simp; omega
      have happend : '[' :: (size ++ ']' :: after) ++ dims' = '[' :: (size ++ ']' :: (after ++ dims')) := by
        simp
      rw [happend, wrap?_brackets hsize, he', Option.bind_some, ih _ hlt hafter rfl]

/-- The names of members matter to no dimension. -/
theorem map_unnamed_withSize? (ty : Ty) (size : List Char) :
    (ty.withSize? size).map unnamed = ty.unnamed.withSize? size := by
  rw [withSize?, withSize?]
  split
  · rw [Option.map_some, unnamed]
  · rw [Option.map_map]
    congr 1

theorem map_unnamed_wrap? (ty : Ty) (dims : List Char) :
    (ty.wrap? dims).map unnamed = ty.unnamed.wrap? dims := by
  fun_induction wrap? ty dims with
  | case1 ty => rw [wrap?_nil, Option.map_some]
  | case2 ty rest c after hdrop hlt ih =>
    rw [wrap?]
    split
    · next c' after' hdrop' =>
      obtain ⟨-, rfl⟩ := List.cons.inj (hdrop.symm.trans hdrop')
      rw [← map_unnamed_withSize?, Option.map_bind, Option.bind_map]
      exact congrArg _ (funext ih)
    · next hdrop' => cases hdrop.symm.trans hdrop'
  | case3 ty rest hdrop =>
    rw [wrap?]
    split
    · next c' after' hdrop' => cases hdrop.symm.trans hdrop'
    · rfl
  | case4 ty dims hnil hopen =>
    rw [wrap?]
    · rfl
    · exact hnil
    · exact hopen

/-! ### Dimensions from the right -/

/-- The last brackets of a type's text are those of its dimensions, if it has any. -/
theorem dimensions_of_brackets {xs digits : List Char} (hopen : '[' ∉ digits)
    (h : xs ++ '[' :: (digits ++ [']']) = cs ++ '[' :: rest) :
    ∃ dims, xs = cs ++ dims ∧ (dims = [] ∨ ∃ more, dims = '[' :: more) ∧
      '[' :: rest = dims ++ '[' :: (digits ++ [']']) := by
  rcases List.append_eq_append_iff.1 h with ⟨zs, rfl, hzs⟩ | ⟨zs, rfl, hzs⟩
  · -- the text before the dimensions ends inside of the last brackets, so before them
    cases zs with
    | nil => exact ⟨[], by simp, .inl rfl, hzs.symm⟩
    | cons c zs =>
      have hmem : '[' ∈ digits ++ [']'] := by
        rw [(List.cons.inj hzs).2]
        simp
      rcases List.mem_append.1 hmem with hmem | hmem
      · exact absurd hmem hopen
      · exact absurd hmem (by decide)
  · refine ⟨zs, rfl, ?_, hzs⟩
    cases zs with
    | nil => exact .inl rfl
    | cons c zs =>
      obtain ⟨rfl, -⟩ := List.cons.inj hzs
      exact .inr ⟨zs, rfl⟩

theorem ne_append_of_isWord {s : List Char} (hword : isWord s) : s ≠ cs ++ '[' :: rest := by
  rintro rfl
  have hmem : '[' ∈ cs ++ '[' :: rest := List.mem_append_right _ List.mem_cons_self
  exact absurd (isWordChar_of_mem hword hmem) (by decide)

theorem Spells.eq_of_spells {u' : Ty} (h : Spells Text.Padded u cs) (h' : Spells Text.Padded u' cs) :
    u = u' :=
  Except.ok.inj ((parseChars_of_spells h).symm.trans (parseChars_of_spells h'))

/-- The last dimension is put around the type that the dimensions before it are around. -/
theorem Spells.wrap?_brackets {xs : List Char} (hty : Spells Text.Padded ty cs)
    (he : Spells Text.Padded e xs)
    (ih : ∀ more, xs = cs ++ '[' :: more → ty.wrap? ('[' :: more) = some e)
    (hword : isWord size) (hsize : e.withSize? size = some u)
    (h : cs ++ '[' :: rest = xs ++ '[' :: (size ++ [']'])) : ty.wrap? ('[' :: rest) = some u := by
  have hopen : '[' ∉ size := fun hc => absurd (isWordChar_of_mem hword hc) (by decide)
  have hclose : ']' ∉ size := fun hc => absurd (isWordChar_of_mem hword hc) (by decide)
  obtain ⟨dims, hxs, hdims, hrest⟩ := dimensions_of_brackets hopen h.symm
  have hwrap : ty.wrap? dims = some e := by
    rcases hdims with rfl | ⟨more, rfl⟩
    · rw [List.append_nil] at hxs
      rw [hxs] at he
      rw [wrap?_nil, hty.eq_of_spells he]
    · exact ih more hxs
  rw [hrest, wrap?_append hwrap, Ty.wrap?_brackets hclose, hsize, Option.bind_some, wrap?_nil]

/-- The dimensions behind the spelling of a type are around it. -/
theorem Spells.wrap?_eq_some (hty : Spells Text.Padded ty cs)
    (h : Spells Text.Padded u (cs ++ '[' :: rest)) : ty.wrap? ('[' :: rest) = some u := by
  generalize hs : cs ++ '[' :: rest = s at h
  -- the parser goes by the last dimension, so does the induction, on the type around all others
  induction u using Ty.induct generalizing rest s with
  | address | bool | function | bytes | string =>
    cases h
    exact absurd hs.symm (ne_append_of_isWord (by decide))
  | uint w =>
    cases h with
    | uint h => exact absurd hs.symm (ne_append_of_isWord (isWord_append_padded (by decide) h))
    | uintWord => exact absurd hs.symm (ne_append_of_isWord (by decide))
  | int w =>
    cases h with
    | int h => exact absurd hs.symm (ne_append_of_isWord (isWord_append_padded (by decide) h))
    | intWord => exact absurd hs.symm (ne_append_of_isWord (by decide))
  | fixedBytes w =>
    cases h with
    | fixedBytes h =>
      exact absurd hs.symm (ne_append_of_isWord (isWord_append_padded (by decide) h))
  | array elem ih =>
    cases h with
    | array h =>
      have hsize : isWord [] := rfl
      exact hty.wrap?_brackets h (fun more hmore => ih _ hmore.symm h) hsize rfl hs
  | fixedArray elem size ih =>
    cases h with
    | fixedArray h hsize =>
      exact hty.wrap?_brackets h (fun more hmore => ih _ hmore.symm h) (isWord_of_padded hsize)
        (withSize?_eq_some_iff.2 (.inr ⟨size, hsize, rfl⟩)) hs
  | tuple members ih =>
    cases h with
    | @tuple _ parts hnames h =>
      -- the text before the dimensions would be a part of the tuple's text in which a parenthesis is open
      have hparts : ∀ part ∈ parts, Balanced part := by
        intro part hpart
        obtain ⟨m, -, hspells⟩ := exists_of_mem_right h hpart
        exact hspells.nested.balanced
      have hpos := (balanced_intercalate hparts).nesting_pos ⟨_, hs⟩ hty.nested.ne_nil (by
        rintro heq
        rw [← heq] at hs
        simp at hs)
      exact absurd hty.nested.balanced.1 (by omega)

/-! ### Both ways agree -/

variable {suffix : String}

theorem parse_append_eq_ok_iff (hstart : suffix = "" ∨ ∃ rest, suffix.toList = '[' :: rest)
    (hblank : ∀ c ∈ suffix.toList, Text.isBlank c = false) :
    parse (ty.canonical ++ suffix) = .ok u ↔ ty.unnamed.wrap? suffix.toList = some u := by
  have hty : Spells Text.Padded ty.unnamed ty.canonical.toList :=
    (spells_canonical ty).imp fun _ _ h => h.padded
  rw [parse, String.toList_append]
  constructor
  · intro h
    have hspells := spells_of_parseChars h
    rw [Text.unspaced_append, Text.unspaced_eq_self hty.nested.isBlank_eq_false,
      Text.unspaced_eq_self hblank] at hspells
    rcases hstart with rfl | ⟨rest, hrest⟩
    · rw [String.toList_empty, List.append_nil] at hspells
      rw [String.toList_empty, wrap?_nil, hty.eq_of_spells hspells]
    · rw [hrest] at hspells ⊢
      exact hty.wrap?_eq_some hspells
  · intro h
    exact parseChars_of_spells (hty.append_of_wrap? h)

theorem withArraySuffix_eq_ok_iff (hblank : ∀ c ∈ suffix.toList, Text.isBlank c = false) :
    ty.withArraySuffix suffix = .ok u ↔ ty.wrap? suffix.toList = some u := by
  rw [withArraySuffix, Text.trim_eq_self hblank]
  split
  · next h => rw [h, Except.ok.injEq, Option.some.injEq]
  · next h => simp [h]

theorem map_withArraySuffix_eq_ok_iff (hblank : ∀ c ∈ suffix.toList, Text.isBlank c = false) :
    (ty.withArraySuffix suffix).map unnamed = .ok u ↔ ty.unnamed.wrap? suffix.toList = some u := by
  rw [← map_unnamed_wrap?, Option.map_eq_some_iff]
  simp only [← withArraySuffix_eq_ok_iff hblank]
  cases ty.withArraySuffix suffix <;> simp [Except.map]

theorem exists_error_iff {ε α : Type} (x : Except ε α) : (∃ e, x = .error e) ↔ ∀ a, x ≠ .ok a := by
  cases x <;> simp

/-- A tuple is declared as its members, with its dimensions behind its kind. -/
theorem toTy_tuple {name : String} {components : List Declaration} {members : List (Member Ty)}
    (hne : components ≠ []) (hmembers : Declaration.toMembers components = .ok members) :
    Declaration.toTy ⟨name, "tuple" ++ suffix, components⟩ = (tuple members).withArraySuffix suffix := by
  have hsuffix : Declaration.tupleSuffix? ("tuple" ++ suffix) = some suffix := by
    rw [Declaration.tupleSuffix?, String.toList_append]
    simp
  rw [Declaration.toTy, hsuffix]
  simp only [hmembers, ok_bind]
  rw [if_neg (by simpa using hne)]

/-- Dimensions behind a type are those that the parser finds in the text of both together. So a tuple that
    is declared by its members has the dimensions of the same type written out. -/
theorem withArraySuffix_iff_parse (suffix : String)
    (hstart : suffix = "" ∨ ∃ rest, suffix.toList = '[' :: rest)
    (hblank : ∀ c ∈ suffix.toList, Text.isBlank c = false) :
    (∀ ty : Ty, ty.unnamed = ty →
      (∀ u, ty.withArraySuffix suffix = .ok u ↔ parse (ty.canonical ++ suffix) = .ok u) ∧
        ((∃ e, ty.withArraySuffix suffix = .error e) ↔
          ∃ e, parse (ty.canonical ++ suffix) = .error e)) ∧
    ∀ name components members, components ≠ [] → Declaration.toMembers components = .ok members →
      ∀ u, (Declaration.toTy ⟨name, "tuple" ++ suffix, components⟩).map unnamed = .ok u ↔
        parse ((tuple members).canonical ++ suffix) = .ok u := by
  constructor
  · intro ty hty
    have hok (u : Ty) : ty.withArraySuffix suffix = .ok u ↔ parse (ty.canonical ++ suffix) = .ok u := by
      rw [withArraySuffix_eq_ok_iff hblank, parse_append_eq_ok_iff hstart hblank, hty]
    refine ⟨hok, ?_⟩
    simp only [exists_error_iff, ne_eq, hok]
  · intro name components members hne hmembers u
    rw [toTy_tuple hne hmembers, map_withArraySuffix_eq_ok_iff hblank,
      parse_append_eq_ok_iff hstart hblank]

theorem withArraySuffix_iff_parse_tuple :
    (tuple [.unnamed bool]).withArraySuffix "[3][]" =
        .ok (array (fixedArray (tuple [.unnamed bool]) 3)) ∧
      parse ((tuple [.unnamed bool]).canonical ++ "[3][]") =
        .ok (array (fixedArray (tuple [.unnamed bool]) 3)) ∧
      (Declaration.toTy ⟨"flags", "tuple" ++ "[3][]", [⟨"flag", "bool", []⟩]⟩).map unnamed =
        .ok (array (fixedArray (tuple [.unnamed bool]) 3)) := by
  have hblank : "[3][]".toList.any Text.isBlank = false := rfl
  have hagree := withArraySuffix_iff_parse "[3][]" (.inr ⟨_, rfl⟩)
    fun c hc => Bool.eq_false_of_not_eq_true (List.any_eq_false.1 hblank c hc)
  have hsuffix : (tuple [.unnamed bool]).withArraySuffix "[3][]" =
      .ok (array (fixedArray (tuple [.unnamed bool]) 3)) := by cbv
  have hbool : parse "bool" = .ok bool := by cbv
  have hmembers : Declaration.toMembers [⟨"flag", "bool", []⟩] = .ok [⟨some "flag", bool⟩] := by
    rw [Declaration.toMembers, Declaration.toTy, hbool]
    rfl
  have hparse := ((hagree.1 _ rfl).1 _).1 hsuffix
  exact ⟨hsuffix, hparse, (hagree.2 "flags" _ _ (List.cons_ne_nil _ _) hmembers _).2 hparse⟩

end Ty

end TxTrace.Abi

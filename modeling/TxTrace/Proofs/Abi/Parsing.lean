import TxTrace.Proofs.Abi.Spelling
import TxTrace.Proofs.Text.Blank
import TxTrace.Result

/-!
What the parser of types accepts: the spellings of types, with white space where it may stand
(`Ty.parseChars_of_spells`, `Ty.spells_of_parseChars`). The canonical text of a type is read back as the
type (`Ty.canonical_round_trip`). Widths and sizes may be written with a plus sign or with zeros before them,
which no canonical text has (`Ty.spells_of_parse`).
-/

namespace TxTrace.Abi

namespace Width

theorem ofBytes?_eq_some_iff {n : Nat} {w : Width} : ofBytes? n = some w ↔ n = w.bytes := by
  rw [ofBytes?, bytes]
  constructor
  · intro h
    split at h
    · rw [← Option.some.inj h]
      dsimp only
      omega
    · cases h
  · rintro rfl
    have hlt := w.index.isLt
    rw [dif_pos (by omega)]
    congr

theorem ofBits?_eq_some_iff {n : Nat} {w : Width} : ofBits? n = some w ↔ n = w.bits := by
  rw [ofBits?, bits]
  split
  · rw [ofBytes?_eq_some_iff]
    omega
  · simp only [reduceCtorEq, false_iff]
    omega

end Width

theorem mapM_eq_ok_iff {ε α β : Type} {f : α → Except ε β} {xs : List α} {ys : List β} :
    xs.mapM f = .ok ys ↔ List.Forall₂ (fun x y => f x = .ok y) xs ys := by
  induction xs generalizing ys with
  | nil => cases ys <;> simp [pure, Except.pure]
  | cons x xs ih =>
    simp only [List.mapM_cons, bind_eq_ok_iff, ih, List.forall₂_cons_left_iff]
    constructor
    · rintro ⟨y, hy, ys', hys', h⟩
      exact ⟨y, ys', hy, hys', (Except.ok.inj h).symm⟩
    · rintro ⟨y, ys', hy, hys', rfl⟩
      exact ⟨y, hy, ys', hys', rfl⟩

namespace Ty

variable {s text elem size body name cs part : List Char} {parts : List (List Char)} {ty e : Ty}
  {c : Char}

/-! ### Outlines -/

theorem Outline.eq_of_array (h : Outline.of s = .array elem size) :
    s = elem ++ '[' :: (size ++ [']']) := by
  rw [← List.reverse_reverse s]
  unfold Outline.of at h
  split at h
  · next rest hs =>
    split at h
    · next c rev hd =>
      have hne : rest.dropWhile (· != '[') ≠ [] := by simp [hd]
      have hc : c = '[' := by simpa [hd] using List.head_dropWhile_not (· != '[') hne
      have hrest := List.takeWhile_append_dropWhile (p := (· != '[')) (l := rest)
      obtain ⟨rfl, rfl⟩ : rev.reverse = elem ∧ (rest.takeWhile (· != '[')).reverse = size := by
        simpa using h
      rw [hd, hc] at hrest
      rw [hs, List.reverse_cons, ← List.reverse_inj]
      simp [hrest]
    · cases h
  · split at h <;> cases h
  · cases h

theorem Outline.eq_of_tuple (h : Outline.of s = .tuple body) : s = '(' :: (body ++ [')']) := by
  rw [← List.reverse_reverse s]
  unfold Outline.of at h
  split at h
  · split at h <;> cases h
  · next rest hs =>
    split at h
    · next body' hbody =>
      rw [← Outline.tuple.inj h, hs, List.reverse_cons, hbody]
      rfl
    · cases h
  · cases h

theorem Outline.eq_of_name (h : Outline.of s = .name name) : name = s := by
  unfold Outline.of at h
  split at h
  · split at h <;> cases h
  · split at h
    · cases h
    · exact (Outline.name.inj h).symm
  · exact (Outline.name.inj h).symm

theorem Outline.of_brackets (hsize : '[' ∉ size) :
    Outline.of (elem ++ '[' :: (size ++ [']'])) = .array elem size := by
  have hreverse : (elem ++ '[' :: (size ++ [']'])).reverse =
      ']' :: (size.reverse ++ '[' :: elem.reverse) := by simp
  have hne : ∀ c ∈ size.reverse, (c != '[') = true := by
    intro c hc
    rw [bne_iff_ne]
    rintro rfl
    exact hsize (List.mem_reverse.1 hc)
  rw [Outline.of, hreverse]
  simp only [List.dropWhile_append_of_pos hne, List.takeWhile_append_of_pos hne]
  simp

theorem Outline.of_parentheses (body : List Char) :
    Outline.of ('(' :: (body ++ [')'])) = .tuple body := by
  have hreverse : ('(' :: (body ++ [')'])).reverse = ')' :: (body.reverse ++ ['(']) := by simp
  have hbody : (body.reverse ++ ['(']).reverse = '(' :: body := by simp
  rw [Outline.of, hreverse]
  simp only [hbody]

theorem Outline.of_word (hword : isWord s) : Outline.of s = .name s := by
  have hlast (c : Char) (rest : List Char) (hs : s.reverse = c :: rest) : isWordChar c :=
    isWordChar_of_mem hword (List.mem_reverse.1 (by rw [hs]; exact List.mem_cons_self))
  unfold Outline.of
  split
  · next rest hs => exact absurd (hlast _ _ hs) (by decide)
  · next rest hs => exact absurd (hlast _ _ hs) (by decide)
  · rfl

/-! ### One level of a type's text -/

/-- The type that the characters `text` of an outline denote. -/
def parseOutline (text : List Char) : Outline → Except TypeError Ty
  | .array elem size => do
    let e ← parseChars elem
    match e.withSize? size with
    | some ty => return ty
    | none => throw (.invalid (String.ofList text))
  | .unopened => throw (.invalid (String.ofList text))
  | .tuple body => do
    let members ← (memberTexts body).mapM parseChars
    return tuple (members.map Member.unnamed)
  | .name name =>
    match (ofName? (String.ofList name)).or (ofSized? name) with
    | some ty => return ty
    | none =>
      if name = "tuple".toList then throw (.missingComponents (String.ofList text))
      else throw (.invalid (String.ofList text))

theorem parseChars_eq (text : List Char) :
    parseChars text = parseOutline text (Outline.of (Text.trim text)) := by
  rw [parseChars]
  split
  case h_3 body h =>
    rw [List.mapM_subtype (g := parseChars) fun _ _ => rfl, List.unattach_attach]
    exact (congrArg (parseOutline text) h).symm
  all_goals
    rename_i h
    exact (congrArg (parseOutline text) h).symm

theorem parseChars_of_array (h : Outline.of (Text.trim text) = .array elem size) :
    parseChars text = .ok ty ↔ ∃ e, parseChars elem = .ok e ∧ e.withSize? size = some ty := by
  rw [parseChars_eq, h, parseOutline, bind_eq_ok_iff]
  refine exists_congr fun e => and_congr_right fun _ => ?_
  cases e.withSize? size <;> simp [pure, Except.pure, throw, throwThe, MonadExceptOf.throw]

theorem parseChars_of_tuple (h : Outline.of (Text.trim text) = .tuple body) :
    parseChars text = .ok ty ↔ ∃ members,
      List.Forall₂ (fun part e => parseChars part = .ok e) (memberTexts body) members ∧
        ty = tuple (members.map Member.unnamed) := by
  rw [parseChars_eq, h, parseOutline, bind_eq_ok_iff]
  refine exists_congr fun members => and_congr mapM_eq_ok_iff ?_
  simp [pure, Except.pure, eq_comm]

theorem parseChars_of_name (h : Outline.of (Text.trim text) = .name name) :
    parseChars text = .ok ty ↔ (ofName? (String.ofList name)).or (ofSized? name) = some ty := by
  rw [parseChars_eq, h, parseOutline]
  cases (ofName? (String.ofList name)).or (ofSized? name) with
  | some ty' => simp [pure, Except.pure]
  | none =>
    dsimp only
    split <;> simp [throw, throwThe, MonadExceptOf.throw]

theorem parseChars_of_unopened (h : Outline.of (Text.trim text) = .unopened) :
    parseChars text = .error (.invalid (String.ofList text)) := by
  rw [parseChars_eq, h]
  rfl

/-! ### Names and sizes -/

theorem toOption_readU64_eq_some_iff {n : Nat} :
    (Text.readU64 cs).toOption = some n ↔ Text.Padded n cs ∧ n ≤ max64 := by
  rw [← Text.readU64_eq_ok_iff]
  exact ⟨eq_ok_of_toOption, fun h => by rw [h]; rfl⟩

theorem withSize?_eq_some_iff :
    e.withSize? size = some ty ↔
      (size = [] ∧ ty = .array e) ∨ ∃ n, Text.Padded n.toNat size ∧ ty = .fixedArray e n := by
  rw [withSize?]
  split
  · next hsize =>
    obtain rfl := List.isEmpty_iff.1 hsize
    constructor
    · intro h
      exact .inl ⟨rfl, (Option.some.inj h).symm⟩
    · rintro (⟨-, rfl⟩ | ⟨n, hn, -⟩)
      · rfl
      · exact absurd rfl hn.ne_nil
  · next hsize =>
    have hne : size ≠ [] := fun h => hsize (List.isEmpty_iff.2 h)
    simp only [Option.map_eq_some_iff, toOption_readU64_eq_some_iff, hne, false_and, false_or]
    constructor
    · rintro ⟨n, ⟨hn, hle⟩, rfl⟩
      refine ⟨UInt64.ofNat n, ?_, rfl⟩
      rwa [UInt64.toNat_ofNat_of_lt' (Nat.lt_succ_iff.2 hle)]
    · rintro ⟨n, hn, rfl⟩
      exact ⟨n.toNat, ⟨hn, Nat.le_of_lt_succ n.toNat_lt⟩, by rw [UInt64.ofNat_toNat]⟩

theorem Spells.of_ofName? {N : Nat → List Char → Prop}
    (h : ofName? (String.ofList name) = some ty) : Spells N ty name := by
  rw [← String.toList_ofList (l := name)]
  unfold ofName? at h
  split at h
  case h_8 => cases h
  all_goals
    rename_i heq
    obtain rfl := Option.some.inj h
    rw [heq]
  exacts [.address, .bool, .string, .bytes, .uintWord, .intWord, .function]

/-- No type is known by a name with digits in it. -/
theorem ofName?_eq_none (hname : ∃ c ∈ name, c.isDigit) : ofName? (String.ofList name) = none := by
  rw [← List.any_eq_true] at hname
  unfold ofName?
  split
  case h_8 => rfl
  all_goals
    next heq =>
    rw [← String.toList_ofList (l := name), heq] at hname
    exact absurd hname (by decide)

theorem Spells.of_ofSized? (h : ofSized? name = some ty) : Spells Text.Padded ty name := by
  unfold ofSized? at h
  split at h
  case h_1 =>
    simp only [Option.map_eq_some_iff, Option.bind_eq_some_iff, toOption_readU64_eq_some_iff,
      Width.ofBits?_eq_some_iff] at h
    obtain ⟨w, ⟨n, ⟨hn, -⟩, rfl⟩, rfl⟩ := h
    exact .uint hn
  case h_2 =>
    simp only [Option.map_eq_some_iff, Option.bind_eq_some_iff, toOption_readU64_eq_some_iff,
      Width.ofBits?_eq_some_iff] at h
    obtain ⟨w, ⟨n, ⟨hn, -⟩, rfl⟩, rfl⟩ := h
    exact .int hn
  case h_3 =>
    simp only [Option.map_eq_some_iff, Option.bind_eq_some_iff, toOption_readU64_eq_some_iff,
      Width.ofBytes?_eq_some_iff] at h
    obtain ⟨w, ⟨n, ⟨hn, -⟩, rfl⟩, rfl⟩ := h
    exact .fixedBytes hn
  case h_4 => cases h

theorem bind_ofBits? {w : Width} (h : Text.Padded w.bits cs) :
    (Text.readU64 cs).toOption.bind Width.ofBits? = some w := by
  have hle : w.bits ≤ max64 := by
    have hlt := w.index.isLt
    rw [Width.bits, Width.bytes, max64]
    omega
  rw [toOption_readU64_eq_some_iff.2 ⟨h, hle⟩, Option.bind_some, Width.ofBits?_eq_some_iff]

theorem bind_ofBytes? {w : Width} (h : Text.Padded w.bytes cs) :
    (Text.readU64 cs).toOption.bind Width.ofBytes? = some w := by
  have hle : w.bytes ≤ max64 := by
    have hlt := w.index.isLt
    rw [Width.bytes, max64]
    omega
  rw [toOption_readU64_eq_some_iff.2 ⟨h, hle⟩, Option.bind_some, Width.ofBytes?_eq_some_iff]

/-- A name with a width behind it is read as one. -/
theorem parseChars_word (hword : isWord cs)
    (h : (ofName? (String.ofList cs)).or (ofSized? cs) = some ty) : parseChars cs = .ok ty := by
  have htrim : Text.trim cs = cs :=
    Text.trim_eq_self fun c hc => isBlank_of_isWordChar (isWordChar_of_mem hword hc)
  have houtline : Outline.of (Text.trim cs) = .name cs := by rw [htrim, Outline.of_word hword]
  exact (parseChars_of_name houtline).2 h

theorem parseChars_sized {n : Nat} (hname : isWord name) (hn : Text.Padded n cs)
    (h : ofSized? (name ++ cs) = some ty) : parseChars (name ++ cs) = .ok ty := by
  obtain ⟨c, hc, hdigit⟩ := hn.exists_isDigit
  refine parseChars_word (isWord_append_padded hname hn) ?_
  rw [ofName?_eq_none ⟨c, List.mem_append_right _ hc, hdigit⟩, Option.none_or, h]

/-! ### All spellings are read -/

/-- A tuple is read member by member. -/
theorem memberTexts_intercalate (hparts : ∀ part ∈ parts, Nested part) :
    memberTexts (",".toList.intercalate parts) = parts := by
  have hblank : ∀ c ∈ ",".toList.intercalate parts, Text.isBlank c = false := by
    intro c hc
    rcases mem_intercalate hc with rfl | ⟨part, hpart, hc⟩
    · rfl
    · exact (hparts part hpart).isBlank_eq_false c hc
  rw [memberTexts, Text.trim_eq_self hblank]
  cases parts with
  | nil => rfl
  | cons part parts =>
    have hne : ",".toList.intercalate (part :: parts) ≠ [] := by
      rw [intercalate_cons]
      exact List.append_ne_nil_of_left_ne_nil (hparts part List.mem_cons_self).ne_nil _
    rw [if_neg (by simpa using hne), splitAt_intercalate (List.cons_ne_nil _ _) hparts]

theorem map_unnamed_map_val {members : List (Member Ty)} (hnames : ∀ m ∈ members, m.name = none) :
    (members.map Member.val).map Member.unnamed = members := by
  induction members with
  | nil => rfl
  | cons m ms ih =>
    have hm : Member.unnamed m.val = m := by
      rw [Member.unnamed, ← hnames m List.mem_cons_self]
    rw [List.map_cons, List.map_cons, hm, ih fun m hm => hnames m (List.mem_cons_of_mem _ hm)]

theorem Spells.trim_eq_self (h : Spells Text.Padded ty cs) : Text.trim cs = cs :=
  Text.trim_eq_self h.nested.isBlank_eq_false

theorem parseChars_of_spells (h : Spells Text.Padded ty cs) : parseChars cs = .ok ty := by
  have htrim := h.trim_eq_self
  induction ty using Ty.induct generalizing cs with
  | address | bool | function | bytes | string =>
    cases h
    exact parseChars_word (by decide) rfl
  | uint w =>
    cases h with
    | uint h => exact parseChars_sized (by decide) h (congrArg (Option.map Ty.uint) (bind_ofBits? h))
    | uintWord => exact parseChars_word (by decide) rfl
  | int w =>
    cases h with
    | int h => exact parseChars_sized (by decide) h (congrArg (Option.map Ty.int) (bind_ofBits? h))
    | intWord => exact parseChars_word (by decide) rfl
  | fixedBytes w =>
    cases h with
    | fixedBytes h =>
      exact parseChars_sized (by decide) h (congrArg (Option.map Ty.fixedBytes) (bind_ofBytes? h))
  | array elem ih =>
    cases h with
    | @array _ cs h =>
      have houtline : Outline.of (Text.trim (cs ++ "[]".toList)) = .array cs [] := by
        rw [htrim]
        exact Outline.of_brackets List.not_mem_nil
      exact (parseChars_of_array houtline).2 ⟨elem, ih h h.trim_eq_self, rfl⟩
  | fixedArray elem size ih =>
    cases h with
    | @fixedArray _ _ cs digits h hsize =>
      have hopen : '[' ∉ digits := fun hc =>
        absurd (isWordChar_of_mem (isWord_of_padded hsize) hc) (by decide)
      have houtline : Outline.of (Text.trim (cs ++ '[' :: (digits ++ [']']))) = .array cs digits := by
        rw [htrim, Outline.of_brackets hopen]
      exact (parseChars_of_array houtline).2
        ⟨elem, ih h h.trim_eq_self, withSize?_eq_some_iff.2 (.inr ⟨size, hsize, rfl⟩)⟩
  | tuple members ih =>
    cases h with
    | @tuple _ parts hnames h =>
      have houtline : Outline.of (Text.trim ('(' :: (",".toList.intercalate parts ++ [')']))) =
          .tuple (",".toList.intercalate parts) := by
        rw [htrim, Outline.of_parentheses]
      have hnested : ∀ part ∈ parts, Nested part := by
        intro part hpart
        obtain ⟨m, -, hspells⟩ := exists_of_mem_right h hpart
        exact hspells.nested
      refine (parseChars_of_tuple houtline).2
        ⟨members.map Member.val, ?_, by rw [map_unnamed_map_val hnames]⟩
      rw [memberTexts_intercalate hnested, List.forall₂_map_right_iff]
      exact .flip (forall₂_imp_of_mem h fun m hm _ _ hspells => ih m hm hspells hspells.trim_eq_self)

/-! ### What is read is a spelling -/

theorem splitAt_ne_nil (depth : Nat) (current cs : List Char) : splitAt depth current cs ≠ [] := by
  induction cs generalizing depth current with
  | nil => exact List.cons_ne_nil _ _
  | cons c cs ih =>
    rw [splitAt]
    split
    · exact List.cons_ne_nil _ _
    · exact ih _ _

theorem intercalate_splitAt (depth : Nat) (current cs : List Char) :
    ",".toList.intercalate (splitAt depth current cs) = current.reverse ++ cs := by
  induction cs generalizing depth current with
  | nil => simp [splitAt]
  | cons c cs ih =>
    rw [splitAt]
    split
    · next hcut =>
      rw [intercalate_cons, if_neg (splitAt_ne_nil 0 [] cs), ih, hcut.1]
      rfl
    · rw [ih]
      simp

theorem unspaced_intercalate (parts : List (List Char)) :
    Text.unspaced (",".toList.intercalate parts) =
      ",".toList.intercalate (parts.map Text.unspaced) := by
  induction parts with
  | nil => rfl
  | cons part parts ih =>
    rw [List.map_cons, intercalate_cons, intercalate_cons, Text.unspaced_append]
    by_cases hnil : parts = []
    · rw [hnil]
      rfl
    · rw [if_neg hnil, if_neg (by simpa using hnil), ← ih]
      rfl

theorem unspaced_body (body : List Char) :
    Text.unspaced body = ",".toList.intercalate ((memberTexts body).map Text.unspaced) := by
  rw [memberTexts]
  split
  · next hblank => rw [← Text.unspaced_trim, List.isEmpty_iff.1 hblank]; rfl
  · rw [← unspaced_intercalate, intercalate_splitAt]
    rfl

theorem spells_of_parseChars (h : parseChars text = .ok ty) :
    Spells Text.Padded ty (Text.unspaced text) := by
  induction hlen : text.length using Nat.strongRecOn generalizing text ty with
  | _ n ih =>
    subst hlen
    rw [← Text.unspaced_trim]
    have hle := Text.length_trim_le text
    cases houtline : Outline.of (Text.trim text) with
    | array elem size =>
      obtain ⟨e, he, hsize⟩ := (parseChars_of_array houtline).1 h
      have hlt := Outline.length_elem_lt houtline
      have hspells := ih elem.length (by omega) he rfl
      rw [Outline.eq_of_array houtline, Text.unspaced_append]
      rcases withSize?_eq_some_iff.1 hsize with ⟨rfl, rfl⟩ | ⟨m, hm, rfl⟩
      · exact .array hspells
      · have hbracket : Text.unspaced ('[' :: (size ++ [']'])) = '[' :: (size ++ [']']) := by
          refine Text.unspaced_eq_self fun c hc => ?_
          simp only [List.mem_cons, List.mem_append, List.not_mem_nil, or_false] at hc
          rcases hc with rfl | hc | rfl
          · rfl
          · exact isBlank_of_isWordChar (isWordChar_of_mem (isWord_of_padded hm) hc)
          · rfl
        rw [hbracket]
        exact .fixedArray hspells hm
    | unopened =>
      rw [parseChars_of_unopened houtline] at h
      cases h
    | tuple body =>
      obtain ⟨members, hmembers, rfl⟩ := (parseChars_of_tuple houtline).1 h
      have hlt := Outline.length_body_lt houtline
      have hbody : Text.unspaced ('(' :: (body ++ [')'])) = '(' :: (Text.unspaced body ++ [')']) := by
        show '(' :: Text.unspaced (body ++ [')']) = _
        rw [Text.unspaced_append]
        rfl
      rw [Outline.eq_of_tuple houtline, hbody, unspaced_body]
      refine .tuple (by simp [Member.unnamed]) ?_
      rw [List.forall₂_map_left_iff, List.forall₂_map_right_iff]
      refine .flip (forall₂_imp_of_mem hmembers fun part hpart e _ he => ?_)
      have hpartle := length_le_of_mem_memberTexts hpart
      exact ih part.length (by omega) he rfl
    | name name =>
      have hname := (parseChars_of_name houtline).1 h
      rw [← Outline.eq_of_name houtline]
      have hspells : Spells Text.Padded ty name := by
        rcases Option.or_eq_some_iff.1 hname with hname | ⟨-, hname⟩
        · exact .of_ofName? hname
        · exact .of_ofSized? hname
      rwa [Text.unspaced_eq_self hspells.nested.isBlank_eq_false]

/-! ### Plain numerals -/

theorem isPlain_intercalate (parts : List (List Char)) :
    Text.isPlain false (",".toList.intercalate parts) = parts.all (Text.isPlain false) := by
  induction parts with
  | nil => rfl
  | cons part parts ih =>
    rw [intercalate_cons, List.all_cons]
    by_cases hnil : parts = []
    · simp [hnil]
    · rw [if_neg hnil, Text.isPlain_append_cons (by decide), ← ih]
      rfl

theorem isPlain_parentheses (body : List Char) :
    Text.isPlain false ('(' :: (body ++ [')'])) = Text.isPlain false body := by
  have hclose : Text.isPlain false (body ++ [')']) = Text.isPlain false body := by
    rw [Text.isPlain_append_cons (by decide)]
    exact Bool.and_true _
  exact hclose

theorem isPlain_brackets (elem size : List Char) :
    Text.isPlain false (elem ++ '[' :: (size ++ [']'])) =
      (Text.isPlain false elem && Text.isPlain false size) := by
  have hclose : Text.isPlain false (size ++ [']']) = Text.isPlain false size := by
    rw [Text.isPlain_append_cons (by decide)]
    exact Bool.and_true _
  rw [Text.isPlain_append_cons (by decide), ← hclose]
  rfl

theorem Spells.isPlain (h : Spells Text.Digits ty cs) : Text.isPlain false cs = true := by
  induction ty using Ty.induct generalizing cs with
  | address | bool | function | bytes | string =>
    cases h
    decide
  | uint w =>
    cases h with
    | uint h => exact h.padded.isPlain_iff.2 h
    | uintWord => decide
  | int w =>
    cases h with
    | int h => exact h.padded.isPlain_iff.2 h
    | intWord => decide
  | fixedBytes w =>
    cases h with
    | fixedBytes h => exact h.padded.isPlain_iff.2 h
  | array elem ih =>
    cases h with
    | array h => exact (isPlain_brackets _ []).trans (by rw [ih h]; rfl)
  | fixedArray elem size ih =>
    cases h with
    | fixedArray h hsize => rw [isPlain_brackets, ih h, hsize.padded.isPlain_iff.2 hsize, Bool.and_true]
  | tuple members ih =>
    cases h with
    | tuple hnames h =>
      rw [isPlain_parentheses, isPlain_intercalate, List.all_eq_true]
      intro part hpart
      obtain ⟨m, hm, hspells⟩ := exists_of_mem_right h hpart
      exact ih m hm hspells

theorem Spells.digits_of_isPlain (h : Spells Text.Padded ty cs) (hplain : Text.isPlain false cs = true) :
    Spells Text.Digits ty cs := by
  induction ty using Ty.induct generalizing cs with
  | address | bool | function | bytes | string =>
    cases h
    constructor
  | uint w =>
    cases h with
    | uint h => exact .uint (h.isPlain_iff.1 hplain)
    | uintWord => exact .uintWord
  | int w =>
    cases h with
    | int h => exact .int (h.isPlain_iff.1 hplain)
    | intWord => exact .intWord
  | fixedBytes w =>
    cases h with
    | fixedBytes h => exact .fixedBytes (h.isPlain_iff.1 hplain)
  | array elem ih =>
    cases h with
    | array h =>
      have helem := (isPlain_brackets _ []).symm.trans hplain
      exact .array (ih h (Bool.and_eq_true_iff.1 helem).1)
  | fixedArray elem size ih =>
    cases h with
    | fixedArray h hsize =>
      rw [isPlain_brackets, Bool.and_eq_true_iff] at hplain
      exact .fixedArray (ih h hplain.1) (hsize.isPlain_iff.1 hplain.2)
  | tuple members ih =>
    cases h with
    | tuple hnames h =>
      rw [isPlain_parentheses, isPlain_intercalate, List.all_eq_true] at hplain
      exact .tuple hnames
        (forall₂_imp_of_mem h fun m hm part hpart hspells => ih m hm hspells (hplain part hpart))

/-- The parser reads all spellings of types, and nothing else but for white space where it may stand. The
    numerals of a text that it reads may begin with a plus sign or with zeros. The text is a spelling with
    plain digits just if none does. -/
theorem spells_of_parse (text : String) (ty : Ty) :
    (parse text = .ok ty →
      Spells Text.Padded ty (Text.unspaced text.toList) ∧
        (Spells Text.Digits ty (Text.unspaced text.toList) ↔
          Text.isPlain false (Text.unspaced text.toList) = true)) ∧
    (Spells Text.Padded ty text.toList → parse text = .ok ty) := by
  refine ⟨fun h => ?_, parseChars_of_spells⟩
  have hspells := spells_of_parseChars h
  exact ⟨hspells, Spells.isPlain, hspells.digits_of_isPlain⟩

theorem spells_of_parse_padded :
    (parse "(uint, bytes+4)[02]" =
        .ok (fixedArray (tuple [.unnamed (uint .word), .unnamed (fixedBytes ⟨3⟩)]) 2) ∧
      Spells Text.Padded (fixedArray (tuple [.unnamed (uint .word), .unnamed (fixedBytes ⟨3⟩)]) 2)
        "(uint,bytes+4)[02]".toList) ∧
    Spells Text.Padded (uint ⟨0⟩) "uint08".toList ∧ parse "uint08" = .ok (uint ⟨0⟩) := by
  have hparse : parse "(uint, bytes+4)[02]" =
      .ok (fixedArray (tuple [.unnamed (uint .word), .unnamed (fixedBytes ⟨3⟩)]) 2) := by cbv
  have hspells : Spells Text.Padded (uint ⟨0⟩) "uint08".toList := .uint (.unsigned 1)
  exact ⟨⟨hparse, ((spells_of_parse _ _).1 hparse).1⟩, hspells, (spells_of_parse _ _).2 hspells⟩

/-- A width with a plus sign is read, though it is no plain digits. -/
theorem not_forall_spells_digits :
    ¬ ∀ text ty, parse text = .ok ty → Spells Text.Digits ty (Text.unspaced text.toList) := by
  intro h
  have hspells := h "uint+8" (uint ⟨0⟩) (by cbv)
  exact absurd hspells.isPlain (by decide)

/-! ### Canonical texts are read back -/

theorem unnamedMembers_eq_self {members : List (Member Ty)} (hnames : ∀ m ∈ members, m.name = none)
    (hvals : ∀ m ∈ members, m.val.unnamed = m.val) : unnamedMembers members = members := by
  induction members with
  | nil => rfl
  | cons m ms ih =>
    have hm : Member.unnamed m.val = m := by
      rw [Member.unnamed, ← hnames m List.mem_cons_self]
    rw [unnamedMembers, hvals m List.mem_cons_self, hm,
      ih (fun m hm => hnames m (List.mem_cons_of_mem _ hm)) fun m hm => hvals m (List.mem_cons_of_mem _ hm)]

theorem Spells.unnamed_eq {N : Nat → List Char → Prop} (h : Spells N ty cs) : ty.unnamed = ty := by
  induction ty using Ty.induct generalizing cs with
  | array elem ih =>
    cases h with
    | array h => rw [unnamed, ih h]
  | fixedArray elem size ih =>
    cases h with
    | fixedArray h => rw [unnamed, ih h]
  | tuple members ih =>
    cases h with
    | tuple hnames h =>
      rw [unnamed, unnamedMembers_eq_self hnames fun m hm => ?_]
      obtain ⟨part, -, hspells⟩ := exists_of_mem_right h.flip hm
      exact ih m hm hspells
  | _ => rfl

theorem parse_canonical (ty : Ty) : parse ty.canonical = .ok ty.unnamed :=
  parseChars_of_spells ((spells_canonical ty).imp fun _ _ h => h.padded)

/-- The canonical text of a type without names is read back as the type, so types with the same canonical
    text are the same, and the types of all texts that are read have canonical texts that stay. -/
theorem canonical_round_trip :
    (∀ ty : Ty, ty.unnamed = ty → parse ty.canonical = .ok ty) ∧
    (∀ ty ty' : Ty, ty.unnamed = ty → ty'.unnamed = ty' → ty.canonical = ty'.canonical → ty = ty') ∧
    ∀ text ty, parse text = .ok ty →
      ty.unnamed = ty ∧ (parse ty.canonical).map canonical = .ok ty.canonical := by
  have hread (ty : Ty) (hty : ty.unnamed = ty) : parse ty.canonical = .ok ty := by
    rw [parse_canonical, hty]
  refine ⟨hread, fun ty ty' hty hty' heq => ?_, fun text ty h => ?_⟩
  · refine Except.ok.inj ((hread ty hty).symm.trans ?_)
    rw [heq, hread ty' hty']
  · have hty := (spells_of_parseChars h).unnamed_eq
    exact ⟨hty, by rw [hread ty hty]; rfl⟩

theorem canonical_round_trip_nested :
    (parse "(uint,())[0][]" =
        .ok (array (fixedArray (tuple [.unnamed (uint .word), .unnamed (tuple [])]) 0)) ∧
      (parse (array (fixedArray (tuple [.unnamed (uint .word), .unnamed (tuple [])]) 0)).canonical).map
          canonical =
        .ok (array (fixedArray (tuple [.unnamed (uint .word), .unnamed (tuple [])]) 0)).canonical) ∧
    parse (array (tuple [])).canonical = .ok (array (tuple [])) ∧
    (uint ⟨31⟩).canonical = (uint .word).canonical ∧ uint ⟨31⟩ = uint .word := by
  have hparse : parse "(uint,())[0][]" =
      .ok (array (fixedArray (tuple [.unnamed (uint .word), .unnamed (tuple [])]) 0)) := by cbv
  exact ⟨⟨hparse, (canonical_round_trip.2.2 _ _ hparse).2⟩, canonical_round_trip.1 _ rfl, rfl,
    canonical_round_trip.2.1 _ _ rfl rfl rfl⟩

end Ty

end TxTrace.Abi

import Mathlib.Data.List.Nodup
import TxTrace.CallTree.Naming
import TxTrace.Proofs.CallTree.Coherent

/-!
The tree of any trace is well formed (`CallTree.wellFormed_named_ofTrace`): its frames stand in the
order of a walk in depth, their ranges nest, and each step belongs to the innermost frame whose range
takes it in.
-/

namespace TxTrace

open Place

/-- The step at `i` lies in the range of the frame. -/
def Frame.Covers (f : Frame) (i : Nat) : Prop := ∃ last, f.stop = some last ∧ f.start ≤ i ∧ i ≤ last

/-- A tree of calls over a trace of so many steps that makes sense as one. -/
structure CallTree.WellFormed (tree : CallTree) (steps : Nat) : Prop where
  root : tree.root.parent = none ∧ tree.root.level = 0
  /-- Every other frame has a caller, which stands before it and one level up. -/
  caller : ∀ {id f}, tree.frame? id = some f → 0 < id →
    ∃ p g, f.parent = some p ∧ p < id ∧ tree.frame? p = some g ∧ f.level = g.level + 1
  /-- A frame lists the frames that it called, in their order. -/
  mem_children_iff : ∀ {id f}, tree.frame? id = some f →
    ∀ c, c ∈ f.children.toList ↔ ∃ g, tree.frame? c = some g ∧ g.parent = some id
  children_sorted : ∀ {id f}, tree.frame? id = some f → f.children.toList.Pairwise (· < ·)
  /-- Every frame but the outermost one is listed once in all. -/
  listed_once : ∀ {id}, 0 < id → id < tree.frames.size →
    (tree.frames.toList.flatMap (·.children.toList)).count id = 1
  /-- The frames inside a frame are a block that follows it directly. -/
  block : ∀ {id}, id < tree.frames.size →
    ∃ last, ∀ c < tree.frames.size, id ∈ tree.ancestors c ↔ id < c ∧ c ≤ last
  /-- The range of a frame holds steps of the trace, the first of them to begin with. -/
  range : ∀ {id f last}, tree.frame? id = some f → f.stop = some last →
    f.start ≤ last ∧ last < steps
  /-- The range of a frame that ran lies in that of its caller. -/
  nested : ∀ {id f p g last}, tree.frame? id = some f → f.parent = some p → tree.frame? p = some g →
    f.stop = some last → ∃ last', g.stop = some last' ∧ g.start ≤ f.start ∧ last ≤ last'
  /-- A frame that ran ends before the next one that was called from the same begins. -/
  disjoint : ∀ {a b f g p last}, a < b → tree.frame? a = some f → tree.frame? b = some g →
    f.parent = some p → g.parent = some p → f.stop = some last → g.stop.isSome → last < g.start
  owners_size : tree.owners.size = steps
  /-- Every step belongs to the one frame of highest level among those whose range takes it in. -/
  owner : ∀ {i}, i < steps → ∃ id f, tree.owner? i = some id ∧ tree.frame? id = some f ∧
    f.Covers i ∧ ∀ id' f', tree.frame? id' = some f' → f'.Covers i → id' ≠ id → f'.level < f.level

namespace CallTree

variable {tree : CallTree} {line : List Nat}

def places (tree : CallTree) : Array Place := tree.frames.map Frame.place

@[simp]
theorem size_places (tree : CallTree) : tree.places.size = tree.frames.size := by
  simp [places]

theorem frame?_root (tree : CallTree) : tree.frame? 0 = some tree.root :=
  Array.getElem?_eq_getElem tree.frames_pos

theorem places_eq_some {id : Nat} {f : Frame} (h : tree.frame? id = some f) :
    tree.places[id]? = some f.place := by
  simp only [places, Array.getElem?_map, frame?] at h ⊢
  rw [h]
  rfl

theorem calls_iff {outer inner : Nat} :
    Calls tree.places outer inner ↔ ∃ f, tree.frame? inner = some f ∧ f.parent = some outer := by
  simp only [Calls, caller?, places, frame?, Array.getElem?_map]
  cases tree.frames[inner]? <;> simp [Frame.place]

theorem parent?_eq_some_iff (h : Arranged tree.places line) {outer inner : Nat} :
    tree.parent? inner = some outer ↔ Calls tree.places outer inner := by
  have hbind : (tree.frame? inner >>= Frame.parent) = caller? tree.places inner := by
    simp only [caller?, places, frame?, Array.getElem?_map, bind]
    cases tree.frames[inner]? <;> rfl
  rw [parent?, hbind, Option.filter_eq_some_iff]
  constructor
  · exact And.left
  · intro hcalls
    exact ⟨hcalls, decide_eq_true (h.lt_of_calls hcalls)⟩

theorem mem_ancestors_iff (h : Arranged tree.places line) (outer inner : Nat) :
    outer ∈ tree.ancestors inner ↔ outer ≠ inner ∧ Encloses tree.places outer inner := by
  induction inner using Nat.strong_induction_on with
  | h inner ih =>
    rw [ancestors]
    split
    · next p hp =>
      have hcalls := (parent?_eq_some_iff h).1 hp
      have hlt := h.lt_of_calls hcalls
      rw [List.mem_cons, ih p hlt]
      constructor
      · rintro (rfl | ⟨hne, hencl⟩)
        · exact ⟨Nat.ne_of_lt hlt, .single hcalls⟩
        · have hle := h.le_of_encloses hencl
          exact ⟨by omega, hencl.tail hcalls⟩
      · rintro ⟨hne, hencl⟩
        by_cases heq : outer = p
        · exact .inl heq
        · exact .inr ⟨heq, Arranged.encloses_caller hencl hne hcalls⟩
    · next hnone =>
      refine iff_of_false List.not_mem_nil ?_
      rintro ⟨hne, hencl⟩
      rcases Relation.ReflTransGen.cases_tail hencl with heq | ⟨p, _, hcalls⟩
      · exact hne heq.symm
      · rw [(parent?_eq_some_iff h).2 hcalls] at hnone
        cases hnone

/-- The frames inside a frame follow it in one block. -/
theorem exists_block (h : Arranged tree.places line) (id : Nat) :
    ∃ last, ∀ c < tree.frames.size, id ∈ tree.ancestors c ↔ id < c ∧ c ≤ last := by
  have key : ∀ n ≤ tree.frames.size, ∃ last, ∀ c < n, id ∈ tree.ancestors c ↔ id < c ∧ c ≤ last := by
    intro n hn
    induction n with
    | zero => exact ⟨id, by simp⟩
    | succ n ih =>
      obtain ⟨last, hlast⟩ := ih (by omega)
      by_cases hmem : id ∈ tree.ancestors n
      · refine ⟨n, fun c hc => ?_⟩
        obtain ⟨hne, hencl⟩ := (mem_ancestors_iff h id n).1 hmem
        constructor
        · intro hc'
          obtain ⟨hne', hencl'⟩ := (mem_ancestors_iff h id c).1 hc'
          have := h.le_of_encloses hencl'
          omega
        · rintro ⟨hlo, hhi⟩
          exact (mem_ancestors_iff h id c).2
            ⟨by omega, h.encloses_of_le hencl (by omega) hhi⟩
      · refine ⟨min last (n - 1), fun c hc => ?_⟩
        by_cases hcn : c = n
        · subst hcn
          refine iff_of_false hmem ?_
          rintro ⟨hlo, hhi⟩
          omega
        · rw [hlast c (by omega)]
          omega
  exact key _ (Nat.le_refl _)

theorem spans_iff_covers {id i : Nat} {f : Frame} (h : tree.frame? id = some f) :
    Spans tree.places [] false id i ↔ f.Covers i := by
  have hplace := places_eq_some h
  constructor
  · rintro ⟨p, hp, hstart, hid | ⟨htrue, _⟩ | ⟨last, hlast, hle⟩⟩
    · cases hid
    · cases htrue
    · rw [hplace, Option.some.injEq] at hp
      subst hp
      exact ⟨last, hlast, hstart, hle⟩
  · rintro ⟨last, hlast, hstart, hle⟩
    exact ⟨f.place, hplace, hstart, .inr (.inr ⟨last, hlast, hle⟩)⟩

theorem frame?_of_lt {id : Nat} (h : id < tree.frames.size) : ∃ f, tree.frame? id = some f :=
  ⟨_, Array.getElem?_eq_getElem h⟩

theorem children_eq (h : Arranged tree.places line) {id : Nat} {f : Frame}
    (hf : tree.frame? id = some f) : f.children.toList =
      (List.range tree.frames.size).filter (caller? tree.places · = some id) := by
  rw [← size_places]
  exact h.children (places_eq_some hf)

theorem mem_children_iff (h : Arranged tree.places line) {id : Nat} {f : Frame}
    (hf : tree.frame? id = some f) (c : Nat) :
    c ∈ f.children.toList ↔ Calls tree.places id c := by
  rw [children_eq h hf, List.mem_filter, List.mem_range, decide_eq_true_eq]
  constructor
  · exact And.right
  · intro hcalls
    exact ⟨size_places tree ▸ lt_size_of_calls hcalls, hcalls⟩

theorem children_sorted (h : Arranged tree.places line) {id : Nat} {f : Frame}
    (hf : tree.frame? id = some f) : f.children.toList.Pairwise (· < ·) := by
  rw [children_eq h hf]
  exact List.Pairwise.filter _ List.pairwise_lt_range

/-- A frame has one caller, which lists it once. -/
theorem count_children (h : Arranged tree.places line) {id : Nat} (hpos : 0 < id)
    (hid : id < tree.frames.size) :
    (tree.frames.toList.flatMap (·.children.toList)).count id = 1 := by
  obtain ⟨c, rfl⟩ : ∃ c, id = c + 1 := ⟨id - 1, by omega⟩
  obtain ⟨f, hf⟩ := frame?_of_lt hid
  obtain ⟨p, q, hparent, _, hq, _, _⟩ := h.called (places_eq_some hf)
  obtain ⟨g, hg⟩ : ∃ g, tree.frame? p = some g :=
    frame?_of_lt (size_places tree ▸ (Array.getElem?_eq_some_iff.1 hq).1)
  have hcalls : Calls tree.places p (c + 1) := calls_iff.2 ⟨f, hf, hparent⟩
  apply List.count_eq_one_of_mem
  · rw [List.nodup_flatMap]
    constructor
    · intro f hf
      obtain ⟨id, hid, rfl⟩ := List.mem_iff_getElem.1 hf
      have hf' : tree.frame? id = some tree.frames.toList[id] := by
        simp only [frame?, Array.getElem_toList]
        exact Array.getElem?_eq_getElem _
      exact (children_sorted h hf').imp Nat.ne_of_lt
    · rw [List.pairwise_iff_getElem]
      intro a b ha hb hab c hca hcb
      have hfa : tree.frame? a = some tree.frames.toList[a] := by
        simp only [frame?, Array.getElem_toList]
        exact Array.getElem?_eq_getElem _
      have hfb : tree.frame? b = some tree.frames.toList[b] := by
        simp only [frame?, Array.getElem_toList]
        exact Array.getElem?_eq_getElem _
      have hcalla := (mem_children_iff h hfa c).1 hca
      have hcallb := (mem_children_iff h hfb c).1 hcb
      rw [Calls, hcalla, Option.some.injEq] at hcallb
      omega
  · rw [List.mem_flatMap]
    refine ⟨g, ?_, (mem_children_iff h hg (c + 1)).2 hcalls⟩
    exact List.mem_of_getElem? (Array.getElem?_toList.trans hg)

/-- Frames in order with ranges that agree with the owners make a well formed tree. -/
theorem WellFormed.of_places (ha : Arranged tree.places line)
    (hr : Ranged tree.places [] tree.owners none) : tree.WellFormed tree.owners.size := by
  have howner : ∀ {i : Nat}, i < tree.owners.size → ∃ id, tree.owners[i]? = some id :=
    fun hi => ⟨_, Array.getElem?_eq_getElem hi⟩
  have hcovers : ∀ {i owner id : Nat} {f : Frame}, tree.owners[i]? = some owner →
      tree.frame? id = some f → (f.Covers i ↔ Encloses tree.places id owner) := by
    intro i owner id f hi hf
    rw [← spans_iff_covers hf]
    exact hr.spans_iff hi id
  constructor
  case root =>
    obtain ⟨p, hp, hparent, hlevel⟩ := ha.root
    have hroot := tree.frame?_root
    rw [places_eq_some hroot, Option.some.injEq] at hp
    subst hp
    exact ⟨hparent, hlevel⟩
  case caller =>
    intro id f hf hpos
    obtain ⟨c, rfl⟩ : ∃ c, id = c + 1 := ⟨id - 1, by omega⟩
    obtain ⟨p, q, hparent, hle, hq, hlevel, _⟩ := ha.called (places_eq_some hf)
    obtain ⟨g, hg⟩ : ∃ g, tree.frame? p = some g :=
      frame?_of_lt (size_places tree ▸ (Array.getElem?_eq_some_iff.1 hq).1)
    rw [places_eq_some hg, Option.some.injEq] at hq
    subst hq
    exact ⟨p, g, hparent, by omega, hg, hlevel⟩
  case mem_children_iff =>
    intro id f hf c
    rw [CallTree.mem_children_iff ha hf, calls_iff]
  case children_sorted => exact fun hf => CallTree.children_sorted ha hf
  case listed_once => exact fun hpos hid => count_children ha hpos hid
  case block => exact fun _ => exists_block ha _
  case range => exact fun hf hstop => hr.stop_lt (places_eq_some hf) hstop
  case nested =>
    intro id f p g last hf hparent hg hstop
    obtain ⟨hle, hlt⟩ := hr.stop_lt (places_eq_some hf) hstop
    obtain ⟨owner, hi⟩ := howner hlt
    have hcover : f.Covers last := ⟨last, hstop, hle, Nat.le_refl _⟩
    have hcalls : Calls tree.places p id := calls_iff.2 ⟨f, hf, hparent⟩
    have hencl := (hcovers hi hf).1 hcover
    obtain ⟨last', hstop', _, hle'⟩ := (hcovers hi hg).2 (.head hcalls hencl)
    refine ⟨last', hstop', ?_, hle'⟩
    exact hr.start_mono (Nat.le_of_lt (ha.lt_of_calls hcalls)) (places_eq_some hg) (places_eq_some hf)
  case disjoint =>
    intro a b f g p last hab hf hg hfp hgp hstop hg'
    by_contra hge
    obtain ⟨last', hstop'⟩ := Option.isSome_iff_exists.1 hg'
    have hstart := hr.start_mono (Nat.le_of_lt hab) (places_eq_some hf) (places_eq_some hg)
    obtain ⟨hle', hlt'⟩ := hr.stop_lt (places_eq_some hg) hstop'
    -- both siblings would take in the first step of the later one
    obtain ⟨owner, hi⟩ : ∃ owner, tree.owners[g.start]? = some owner :=
      howner (Nat.lt_of_le_of_lt hle' hlt')
    have hfc : f.Covers g.start := ⟨last, hstop, hstart, Nat.le_of_not_lt hge⟩
    have hgc : g.Covers g.start := ⟨last', hstop', Nat.le_refl _, hle'⟩
    have hencl := ha.encloses_of_le ((hcovers hi hf).1 hfc) (Nat.le_of_lt hab)
      (ha.le_of_encloses ((hcovers hi hg).1 hgc))
    have hcalls : Calls tree.places p b := calls_iff.2 ⟨g, hg, hgp⟩
    have hle := ha.le_of_encloses (Arranged.encloses_caller hencl (Nat.ne_of_lt hab) hcalls)
    have hlt := ha.lt_of_calls (calls_iff.2 ⟨f, hf, hfp⟩ : Calls tree.places p a)
    omega
  case owners_size => rfl
  case owner =>
    intro i hlt
    obtain ⟨owner, hi⟩ := howner hlt
    have hsize : owner < tree.frames.size := size_places tree ▸ hr.owner_lt hi
    obtain ⟨f, hf⟩ := frame?_of_lt hsize
    refine ⟨owner, f, ?_, hf, (hcovers hi hf).2 .refl, ?_⟩
    · rw [owner?, hi, Option.filter_some, if_pos (decide_eq_true hsize)]
    · intro id' f' hf' hcover hne
      exact ha.level_lt ((hcovers hi hf').1 hcover) hne (places_eq_some hf') (places_eq_some hf)

/-- The tree of a trace, with its last frame closed and stretched over trailing steps. -/
theorem places_ofTrace (tx : Transaction) (trace : Trace) :
    (ofTrace tx trace).1.places =
      (Progress.closed tx trace).places.modify 0
        (Place.stretch (Progress.closed tx trace).trailing) := by
  have hplaces := Progress.places_modify (Progress.closed tx trace) 0
    (g := Progress.finishRoot trace (Progress.closed tx trace).trailing)
    (k := Place.stretch (Progress.closed tx trace).trailing) fun _ => rfl
  rw [← hplaces, places, Progress.frames_ofTrace]
  rfl

theorem arranged_ofTrace (tx : Transaction) (trace : Trace) :
    Arranged (ofTrace tx trace).1.places [] := by
  have hline : (Progress.closed tx trace).line = [] := by
    simp [Progress.line, Progress.opened_closed]
  rw [places_ofTrace, ← hline]
  exact (Progress.coherent_closed tx trace).arranged.modify 0
    (fun _ => rfl) (fun _ => rfl) fun _ => rfl

theorem ranged_ofTrace (tx : Transaction) (trace : Trace) :
    Ranged (ofTrace tx trace).1.places [] (ofTrace tx trace).1.owners none := by
  have hline : (Progress.closed tx trace).line = [] := by
    simp [Progress.line, Progress.opened_closed]
  have hranged := (Progress.coherent_closed tx trace).ranged
  rw [hline] at hranged
  rw [places_ofTrace, Progress.owners_ofTrace]
  exact hranged.stretch

theorem size_owners_ofTrace (tx : Transaction) (trace : Trace) :
    (ofTrace tx trace).1.owners.size = trace.steps.size := by
  rw [Progress.owners_ofTrace, Progress.size_owners_closed]

/-! ### Names -/

theorem frames_named (r : Registry) (tree : CallTree) (id : Nat) :
    (tree.named r).1.frame? id =
      (tree.frame? id).map fun f => { f with naming := (r.name id f).1 } := by
  simp only [named, frame?, Array.getElem?_zipWith, Array.getElem?_mapIdx]
  cases tree.frames[id]? <;> rfl

/-- Names do not move a frame. -/
theorem places_named (r : Registry) (tree : CallTree) :
    (tree.named r).1.places = tree.places := by
  apply Array.ext_getElem?
  intro id
  have hframe := frames_named r tree id
  simp only [places, Array.getElem?_map, frame?] at hframe ⊢
  rw [hframe, Option.map_map]
  rfl

theorem owners_named (r : Registry) (tree : CallTree) : (tree.named r).1.owners = tree.owners := rfl

theorem arranged_named_ofTrace (tx : Transaction) (trace : Trace) (r : Registry) :
    Arranged ((ofTrace tx trace).1.named r).1.places [] := by
  rw [places_named]
  exact arranged_ofTrace tx trace

theorem ranged_named_ofTrace (tx : Transaction) (trace : Trace) (r : Registry) :
    Ranged ((ofTrace tx trace).1.named r).1.places [] ((ofTrace tx trace).1.named r).1.owners none := by
  rw [places_named, owners_named]
  exact ranged_ofTrace tx trace

/-- Whatever the steps of a trace are, the tree of calls that is built from them is well formed. -/
theorem wellFormed_named_ofTrace (tx : Transaction) (trace : Trace) (r : Registry) :
    ((ofTrace tx trace).1.named r).1.WellFormed trace.steps.size := by
  rw [← size_owners_ofTrace tx trace]
  exact WellFormed.of_places (arranged_named_ofTrace tx trace r) (ranged_named_ofTrace tx trace r)

end CallTree

end TxTrace

import Mathlib.Data.List.Chain
import Mathlib.Logic.Relation
import Mathlib.Tactic.SplitIfs
import TxTrace.CallTree.Build

/-!
The order in which frames stand. `Arranged` says of the frames of a tree, and of the line of those
that are open, that callers precede what they called and that all that a frame called follows it
directly. Adding and closing frames keeps it.
-/

namespace TxTrace

/-- What a frame says about where it stands: its caller, its callees, how many frames are around it,
    and its first and last step. -/
structure Place where
  parent : Option Nat
  children : List Nat
  level : Nat
  start : Nat
  stop : Option Nat

def Frame.place (f : Frame) : Place := ⟨f.parent, f.children.toList, f.level, f.start, f.stop⟩

namespace Place

/-- The caller of the frame at `id`. -/
def caller? (places : Array Place) (id : Nat) : Option Nat := places[id]?.bind (·.parent)

/-- The frame at `outer` called the one at `inner`. -/
def Calls (places : Array Place) (outer inner : Nat) : Prop := caller? places inner = some outer

/-- The frame at `outer` is the one at `inner` or stands around it. -/
def Encloses (places : Array Place) : Nat → Nat → Prop := Relation.ReflTransGen (Calls places)

/-- The places after the frame at `top` has called one more, at `level`, from the step `start` on. -/
def add (places : Array Place) (top level start : Nat) : Array Place :=
  (places.modify top fun p => { p with children := p.children ++ [places.size] }).push
    ⟨some top, [], level, start, none⟩

theorem caller?_modify {places : Array Place} {id : Nat} {g : Place → Place}
    (hg : ∀ p, (g p).parent = p.parent) : caller? (places.modify id g) = caller? places := by
  funext inner
  simp only [caller?, Array.getElem?_modify]
  split
  · cases places[inner]? <;> simp [hg]
  · rfl

theorem calls_modify {places : Array Place} {id : Nat} {g : Place → Place}
    (hg : ∀ p, (g p).parent = p.parent) : Calls (places.modify id g) = Calls places := by
  funext outer inner
  rw [Calls, caller?_modify hg, Calls]

theorem encloses_modify {places : Array Place} {id : Nat} {g : Place → Place}
    (hg : ∀ p, (g p).parent = p.parent) : Encloses (places.modify id g) = Encloses places := by
  rw [Encloses, calls_modify hg, Encloses]

theorem getElem?_add (places : Array Place) (top level start id : Nat) :
    (add places top level start)[id]? =
      if id = places.size then some ⟨some top, [], level, start, none⟩
      else if top = id then
        places[id]?.map fun p => { p with children := p.children ++ [places.size] }
      else places[id]? := by
  simp only [add, Array.getElem?_push, Array.size_modify, Array.getElem?_modify]

theorem size_add (places : Array Place) (top level start : Nat) :
    (add places top level start).size = places.size + 1 := by
  simp [add]

theorem caller?_add {places : Array Place} {top level start id : Nat} :
    caller? (add places top level start) id =
      if id = places.size then some top else caller? places id := by
  simp only [caller?, getElem?_add]
  split_ifs with hnew htop
  · rfl
  · cases places[id]? <;> rfl
  · rfl

theorem lt_size_of_getElem? {places : Array Place} {id : Nat} {p : Place}
    (h : places[id]? = some p) : id < places.size :=
  (Array.getElem?_eq_some_iff.1 h).1

/-- Every place after a call is one from before it or the new one. -/
theorem lt_or_eq_of_add {places : Array Place} {top level start id : Nat} {p : Place}
    (h : (add places top level start)[id]? = some p) :
    id < places.size ∨ id = places.size ∧ p = ⟨some top, [], level, start, none⟩ := by
  have hlt := lt_size_of_getElem? h
  rw [size_add] at hlt
  by_cases hid : id = places.size
  · rw [getElem?_add, if_pos hid, Option.some.injEq] at h
    exact .inr ⟨hid, h.symm⟩
  · left
    omega

/-- Only the caller learns of a call. -/
theorem before_add {places : Array Place} {top level start id : Nat} {p : Place}
    (hid : id < places.size) (h : (add places top level start)[id]? = some p) :
    ∃ q children, places[id]? = some q ∧ p = { q with children } ∧
      children = if id = top then q.children ++ [places.size] else q.children := by
  rw [getElem?_add, if_neg (Nat.ne_of_lt hid)] at h
  split_ifs at h with htop
  · obtain ⟨q, hq, rfl⟩ := Option.map_eq_some_iff.1 h
    exact ⟨q, _, hq, rfl, by rw [if_pos htop.symm]⟩
  · exact ⟨p, p.children, h, rfl, by rw [if_neg fun h => htop h.symm]⟩

theorem after_add {places : Array Place} {top level start id : Nat} {q : Place}
    (h : places[id]? = some q) :
    ∃ children, (add places top level start)[id]? = some { q with children } := by
  rw [getElem?_add, if_neg (Nat.ne_of_lt (lt_size_of_getElem? h)), h]
  split_ifs
  · exact ⟨_, rfl⟩
  · exact ⟨q.children, rfl⟩

theorem before_modify {places : Array Place} {id i : Nat} {g : Place → Place} {p : Place}
    (h : (places.modify id g)[i]? = some p) :
    ∃ q, places[i]? = some q ∧ p = if i = id then g q else q := by
  rw [Array.getElem?_modify] at h
  split_ifs at h with hid
  · obtain ⟨q, hq, rfl⟩ := Option.map_eq_some_iff.1 h
    exact ⟨q, hq, by rw [if_pos hid.symm]⟩
  · exact ⟨p, h, by rw [if_neg fun h => hid h.symm]⟩

theorem after_modify {places : Array Place} {id i : Nat} {g : Place → Place} {q : Place}
    (h : places[i]? = some q) : (places.modify id g)[i]? = some (if i = id then g q else q) := by
  rw [Array.getElem?_modify, h]
  split_ifs with hid heq heq
  · rfl
  · exact absurd hid.symm heq
  · exact absurd heq.symm hid
  · rfl

theorem lt_size_of_calls {places : Array Place} {outer inner : Nat}
    (h : Calls places outer inner) : inner < places.size := by
  obtain ⟨p, hp, _⟩ := Option.bind_eq_some_iff.1 h
  exact lt_size_of_getElem? hp

end Place

open Place

/-- Frames in the order of a walk in depth: a frame is called from the one before it or from one
    around that, and knows its callees and its level. The frames of `line` are open: each was called
    from the next, down to the outermost one, and the last frame of all is the first of them or
    stands inside it. -/
structure Arranged (places : Array Place) (line : List Nat) : Prop where
  root : ∃ p, places[0]? = some p ∧ p.parent = none ∧ p.level = 0
  called : ∀ {id : Nat} {p : Place}, places[id + 1]? = some p →
    ∃ outer q, p.parent = some outer ∧ outer ≤ id ∧ places[outer]? = some q ∧
      p.level = q.level + 1 ∧ Encloses places outer id
  children : ∀ {id : Nat} {p : Place}, places[id]? = some p →
    p.children = (List.range places.size).filter (caller? places · = some id)
  chain : line.IsChain fun inner outer => Calls places outer inner
  bottom : ∀ id ∈ line.getLast?, id = 0
  last : ∀ top ∈ line.head?, Encloses places top (places.size - 1)

namespace Arranged

variable {places : Array Place} {line : List Nat}

theorem size_pos (h : Arranged places line) : 0 < places.size := by
  obtain ⟨p, hp, _⟩ := h.root
  exact lt_size_of_getElem? hp

/-- A caller precedes what it calls. -/
theorem lt_of_calls (h : Arranged places line) {outer inner : Nat}
    (hcalls : Calls places outer inner) : outer < inner := by
  obtain ⟨p, hp, hparent⟩ := Option.bind_eq_some_iff.1 hcalls
  cases inner with
  | zero =>
    obtain ⟨root, hroot, hnone, _⟩ := h.root
    rw [hroot, Option.some.injEq] at hp
    rw [← hp, hnone] at hparent
    cases hparent
  | succ id =>
    obtain ⟨outer', _, hparent', hle, _⟩ := h.called hp
    rw [hparent, Option.some.injEq] at hparent'
    omega

/-- A frame stands a level further in than its caller. -/
theorem level_of_calls (h : Arranged places line) {outer inner : Nat} {q : Place}
    (hcalls : Calls places outer inner) (hq : places[inner]? = some q) :
    ∃ p, places[outer]? = some p ∧ q.level = p.level + 1 := by
  have hlt := h.lt_of_calls hcalls
  obtain ⟨id, rfl⟩ : ∃ id, inner = id + 1 := ⟨inner - 1, by omega⟩
  obtain ⟨outer', p, hparent, _, hp, hlevel, _⟩ := h.called hq
  rw [Calls, caller?, hq, Option.bind_some, hparent, Option.some.injEq] at hcalls
  exact ⟨p, hcalls ▸ hp, hlevel⟩

theorem le_of_encloses (h : Arranged places line) {outer inner : Nat}
    (hencl : Encloses places outer inner) : outer ≤ inner := by
  induction hencl with
  | refl => exact Nat.le_refl _
  | tail _ hcalls ih => exact Nat.le_trans ih (Nat.le_of_lt (h.lt_of_calls hcalls))

/-- What stands around a frame stands around its caller or is the caller. -/
theorem encloses_caller {outer inner caller : Nat} (hencl : Encloses places outer inner)
    (hne : outer ≠ inner) (hcalls : Calls places caller inner) : Encloses places outer caller := by
  rcases Relation.ReflTransGen.cases_tail hencl with heq | ⟨caller', hencl', hcalls'⟩
  · exact absurd heq.symm hne
  · rw [Calls, hcalls', Option.some.injEq] at hcalls
    exact hcalls ▸ hencl'

/-- The frames inside one are a block that follows it. -/
theorem encloses_of_le (h : Arranged places line) {outer mid inner : Nat}
    (hencl : Encloses places outer inner) (hlo : outer ≤ mid) (hhi : mid ≤ inner) :
    Encloses places outer mid := by
  induction inner with
  | zero =>
    have hmid : mid = outer := by omega
    exact hmid ▸ .refl
  | succ id ih =>
    by_cases hlast : mid = id + 1
    · exact hlast ▸ hencl
    · have hne : outer ≠ id + 1 := by omega
      rcases Relation.ReflTransGen.cases_tail hencl with heq | ⟨caller, hencl', hcalls⟩
      · exact absurd heq.symm hne
      · obtain ⟨p, hp, hparent⟩ := Option.bind_eq_some_iff.1 hcalls
        obtain ⟨caller', _, hparent', _, _, _, hbefore⟩ := h.called hp
        rw [hparent, Option.some.injEq] at hparent'
        exact ih (hencl'.trans (hparent' ▸ hbefore)) (by omega)

/-- A frame stands at a lower level than those inside it. -/
theorem level_lt (h : Arranged places line) {outer inner : Nat} {p q : Place}
    (hencl : Encloses places outer inner) (hne : outer ≠ inner) (hp : places[outer]? = some p)
    (hq : places[inner]? = some q) : p.level < q.level := by
  induction hencl generalizing q with
  | refl => exact absurd rfl hne
  | @tail mid inner _ hcalls ih =>
    obtain ⟨m, hm, hlevel⟩ := h.level_of_calls hcalls hq
    by_cases houter : outer = mid
    · subst houter
      rw [hp, Option.some.injEq] at hm
      rw [hm, hlevel]
      exact Nat.lt_succ_self _
    · have := ih houter hm
      omega

/-- The open frames are those around the innermost one. -/
theorem mem_line_iff (h : Arranged places line) {top : Nat} (htop : top ∈ line.head?) (id : Nat) :
    id ∈ line ↔ Encloses places id top := by
  have key : ∀ (line : List Nat), (line.IsChain fun inner outer => Calls places outer inner) →
      (∀ id ∈ line.getLast?, id = 0) → ∀ top ∈ line.head?, (id ∈ line ↔ Encloses places id top) := by
    intro line hchain hbottom top htop
    induction line generalizing top with
    | nil => cases htop
    | cons inner outer ih =>
      obtain rfl : inner = top := by simpa using htop
      cases outer with
      | nil =>
        have hzero : inner = 0 := hbottom inner (by simp)
        constructor
        · intro hmem
          rw [List.mem_singleton.1 hmem]
          exact .refl
        · intro hencl
          have hle := h.le_of_encloses hencl
          exact List.mem_singleton.2 (by omega)
      | cons next rest =>
        obtain ⟨hcalls, hrest⟩ := List.isChain_cons_cons.1 hchain
        have hnext := ih hrest (by simpa using hbottom) next (by simp)
        constructor
        · intro hmem
          rcases List.mem_cons.1 hmem with rfl | hmem
          · exact .refl
          · exact (hnext.1 hmem).tail hcalls
        · intro hencl
          by_cases heq : id = inner
          · exact heq ▸ List.mem_cons_self
          · exact List.mem_cons_of_mem _ (hnext.2 (encloses_caller hencl heq hcalls))
  exact key line h.chain h.bottom top htop

/-- As many frames are around the innermost open one as are open besides it. -/
theorem level_top (h : Arranged places line) {top : Nat} {outer : List Nat} {p : Place}
    (hline : line = top :: outer) (hp : places[top]? = some p) : p.level = outer.length := by
  have key : ∀ (outer : List Nat) (top : Nat) (p : Place),
      ((top :: outer).IsChain fun inner outer => Calls places outer inner) →
      (∀ id ∈ (top :: outer).getLast?, id = 0) → places[top]? = some p →
      p.level = outer.length := by
    intro outer
    induction outer with
    | nil =>
      intro top p _ hbottom hp
      obtain rfl : top = 0 := hbottom top (by simp)
      obtain ⟨root, hroot, _, hlevel⟩ := h.root
      rw [hroot, Option.some.injEq] at hp
      rw [← hp, hlevel, List.length_nil]
    | cons next rest ih =>
      intro top p hchain hbottom hp
      obtain ⟨hcalls, hrest⟩ := List.isChain_cons_cons.1 hchain
      obtain ⟨q, hq, hlevel⟩ := h.level_of_calls hcalls hp
      rw [hlevel, ih next q hrest (by simpa using hbottom) hq, List.length_cons]
  exact key outer top p (hline ▸ h.chain) (hline ▸ h.bottom) hp

/-- The open frames are frames. -/
theorem lt_size_of_mem_line (h : Arranged places line) {id : Nat} (hid : id ∈ line) :
    id < places.size := by
  obtain ⟨top, htop⟩ : ∃ top, top ∈ line.head? := by
    cases line with
    | nil => cases hid
    | cons top outer => exact ⟨top, rfl⟩
  have hle := h.le_of_encloses ((h.mem_line_iff htop id).1 hid)
  have hlast := h.le_of_encloses (h.last top htop)
  have := h.size_pos
  omega

/-- No frame is open twice. -/
theorem not_mem_tail (h : Arranged places line) {top : Nat} {outer : List Nat}
    (hline : line = top :: outer) : top ∉ outer := by
  subst hline
  cases outer with
  | nil => exact List.not_mem_nil
  | cons next rest =>
    intro hmem
    obtain ⟨hcalls, hrest⟩ := List.isChain_cons_cons.1 h.chain
    have htail : Arranged places (next :: rest) :=
      { h with
        chain := hrest
        bottom := by simpa using h.bottom
        last := by
          intro id hid
          obtain rfl : next = id := by simpa using hid
          exact Relation.ReflTransGen.head hcalls (h.last top rfl) }
    have hle := htail.le_of_encloses ((htail.mem_line_iff rfl top).1 hmem)
    have hlt := h.lt_of_calls hcalls
    omega

/-! ### Adding and closing frames -/

/-- Only callers, callees and levels matter. -/
theorem modify (h : Arranged places line) (id : Nat) {g : Place → Place}
    (hparent : ∀ p, (g p).parent = p.parent) (hchildren : ∀ p, (g p).children = p.children)
    (hlevel : ∀ p, (g p).level = p.level) : Arranged (places.modify id g) line := by
  have hsame : ∀ (i : Nat) (q : Place), (if i = id then g q else q).parent = q.parent ∧
      (if i = id then g q else q).children = q.children ∧
      (if i = id then g q else q).level = q.level := by
    intro i q
    split_ifs
    · exact ⟨hparent q, hchildren q, hlevel q⟩
    · exact ⟨rfl, rfl, rfl⟩
  constructor
  case root =>
    obtain ⟨q, hq, hnone, hzero⟩ := h.root
    obtain ⟨hqparent, _, hqlevel⟩ := hsame 0 q
    exact ⟨_, after_modify hq, hqparent.trans hnone, hqlevel.trans hzero⟩
  case called =>
    intro i p hp
    obtain ⟨q, hq, rfl⟩ := before_modify hp
    obtain ⟨outer, m, hm, hle, hout, hmlevel, hencl⟩ := h.called hq
    obtain ⟨hqparent, _, hqlevel⟩ := hsame (i + 1) q
    obtain ⟨_, _, hmlevel'⟩ := hsame outer m
    refine ⟨outer, _, hqparent.trans hm, hle, after_modify hout, ?_, ?_⟩
    · rw [hqlevel, hmlevel, hmlevel']
    · rw [encloses_modify hparent]
      exact hencl
  case children =>
    intro i p hp
    obtain ⟨q, hq, rfl⟩ := before_modify hp
    rw [(hsame i q).2.1, h.children hq, Array.size_modify, caller?_modify hparent]
  case chain =>
    rw [calls_modify hparent]
    exact h.chain
  case bottom => exact h.bottom
  case last =>
    rw [encloses_modify hparent, Array.size_modify]
    exact h.last

/-- Closing the innermost open frame. -/
theorem tail (h : Arranged places line) : Arranged places line.tail := by
  cases line with
  | nil => exact h
  | cons top outer =>
    cases outer with
    | nil => exact { h with chain := .nil, bottom := by simp, last := by simp }
    | cons next rest =>
      obtain ⟨hcalls, hrest⟩ := List.isChain_cons_cons.1 h.chain
      refine { h with chain := hrest, bottom := by simpa using h.bottom, last := ?_ }
      intro id hid
      obtain rfl : next = id := by simpa using hid
      exact Relation.ReflTransGen.head hcalls (h.last top rfl)

theorem encloses_add_of_lt (h : Arranged places line) {top level start outer inner : Nat}
    (hinner : inner < places.size) :
    Encloses (add places top level start) outer inner ↔ Encloses places outer inner := by
  have hcalls : ∀ {mid inner : Nat}, inner < places.size →
      (Calls (add places top level start) mid inner ↔ Calls places mid inner) := by
    intro mid inner hinner
    rw [Calls, caller?_add, if_neg (Nat.ne_of_lt hinner), Calls]
  constructor
  · intro hencl
    induction hencl with
    | refl => exact .refl
    | tail _ hlast ih =>
      have hold := (hcalls hinner).1 hlast
      exact (ih (Nat.lt_trans (h.lt_of_calls hold) hinner)).tail hold
  · have hle : Calls places ≤ Calls (Place.add places top level start) :=
      fun _ _ hold => (hcalls (lt_size_of_calls hold)).2 hold
    exact Relation.ReflTransGen.mono hle outer inner

/-- After a call from `top`, every frame still is called from the one before it or from one around
    that: all frames between `top` and the new one lie inside `top`. -/
theorem called_add (h : Arranged places line) {top level start id : Nat} {q p : Place}
    (hq : places[top]? = some q) (hlevel : level = q.level + 1)
    (hlast : Encloses places top (places.size - 1))
    (hp : (Place.add places top level start)[id + 1]? = some p) :
    ∃ outer m, p.parent = some outer ∧ outer ≤ id ∧
      (Place.add places top level start)[outer]? = some m ∧ p.level = m.level + 1 ∧
      Encloses (Place.add places top level start) outer id := by
  rcases lt_or_eq_of_add hp with hid | ⟨hid, rfl⟩
  · obtain ⟨p', _, hp', rfl, _⟩ := before_add hid hp
    obtain ⟨outer, m, hm, hle, hout, hmlevel, hencl⟩ := h.called hp'
    obtain ⟨_, hout'⟩ := after_add hout
    exact ⟨outer, _, hm, hle, hout', hmlevel, (h.encloses_add_of_lt (by omega)).2 hencl⟩
  · have htop := lt_size_of_getElem? hq
    have hend : id = places.size - 1 := by omega
    obtain ⟨_, hq'⟩ := after_add hq
    refine ⟨top, _, rfl, by omega, hq', hlevel, ?_⟩
    rw [hend]
    exact (h.encloses_add_of_lt (by omega)).2 hlast

/-- After a call, every frame still knows those that it called, in order. -/
theorem children_add (h : Arranged places line) {top level start id : Nat} {p : Place}
    (htop : top < places.size) (hp : (Place.add places top level start)[id]? = some p) :
    p.children = (List.range (Place.add places top level start).size).filter
      (caller? (Place.add places top level start) · = some id) := by
  have hcaller : ∀ c ∈ List.range places.size,
      decide (caller? (Place.add places top level start) c = some id) =
        decide (caller? places c = some id) := by
    intro c hc
    rw [caller?_add, if_neg (Nat.ne_of_lt (List.mem_range.1 hc))]
  rw [size_add, List.range_succ, List.filter_append, List.filter_congr hcaller]
  rcases lt_or_eq_of_add hp with hid | ⟨hid, rfl⟩
  · obtain ⟨q, children, hq, rfl, hchildren⟩ := before_add hid hp
    dsimp only
    rw [hchildren, h.children hq]
    by_cases heq : id = top
    · rw [if_pos heq, List.filter_cons_of_pos, List.filter_nil]
      simp [caller?_add, heq]
    · rw [if_neg heq, List.filter_cons_of_neg, List.filter_nil, List.append_nil]
      simp [caller?_add, Ne.symm heq]
  · -- The new frame called nothing: callers precede what they call.
    rw [eq_comm, List.append_eq_nil_iff, List.filter_eq_nil_iff, List.filter_eq_nil_iff]
    constructor
    · intro c hc hcall
      have hcall' : caller? places c = some id := by simpa only [decide_eq_true_eq] using hcall
      have hlt := h.lt_of_calls hcall'
      have := List.mem_range.1 hc
      omega
    · intro c hc
      obtain rfl := List.mem_singleton.1 hc
      simp only [caller?_add, if_true, decide_eq_true_eq, Option.some.injEq]
      omega

/-- A call from the innermost open frame, at the end of the order. The frame that it adds may be
    opened. -/
theorem add (h : Arranged places line) {top : Nat} (htop : top ∈ line.head?) (start : Nat) :
    Arranged (add places top line.length start) line ∧
      Arranged (add places top line.length start) (places.size :: line) := by
  obtain ⟨outer, hline⟩ : ∃ outer, line = top :: outer := by
    cases line with
    | nil => cases htop
    | cons id outer => exact ⟨outer, by rw [Option.some.inj htop]⟩
  have hlt : top < places.size := h.lt_size_of_mem_line (by simp [hline])
  obtain ⟨q, hq⟩ : ∃ q, places[top]? = some q := ⟨_, Array.getElem?_eq_getElem hlt⟩
  have hlevel : line.length = q.level + 1 := by
    rw [h.level_top hline hq, hline, List.length_cons]
  have hcalls : Calls (Place.add places top line.length start) top places.size := by
    rw [Calls, caller?_add, if_pos rfl]
  have hclosed : Arranged (Place.add places top line.length start) line := by
    constructor
    case root =>
      obtain ⟨root, hroot, hnone, hzero⟩ := h.root
      obtain ⟨_, hroot'⟩ := after_add hroot
      exact ⟨_, hroot', hnone, hzero⟩
    case called =>
      intro id p hp
      exact h.called_add hq hlevel (h.last top htop) hp
    case children =>
      intro id p hp
      exact h.children_add hlt hp
    case chain =>
      refine h.chain.imp ?_
      intro inner outer' hold
      rw [Calls, caller?_add, if_neg (Nat.ne_of_lt (lt_size_of_calls hold))]
      exact hold
    case bottom => exact h.bottom
    case last =>
      intro id hid
      obtain rfl : top = id := Option.some.inj (htop.symm.trans hid)
      rw [size_add]
      exact Relation.ReflTransGen.single hcalls
  refine ⟨hclosed, { hclosed with chain := ?_, bottom := ?_, last := ?_ }⟩
  · rw [hline] at hclosed hcalls ⊢
    exact List.isChain_cons_cons.2 ⟨hcalls, hclosed.chain⟩
  · have hbottom := hclosed.bottom
    rw [hline] at hbottom ⊢
    simpa using hbottom
  · intro id hid
    obtain rfl : places.size = id := Option.some.inj hid
    rw [size_add]
    exact .refl

/-- A single frame without a caller. -/
theorem singleton (start : Nat) : Arranged #[⟨none, [], 0, start, none⟩] [0] where
  root := ⟨_, rfl, rfl, rfl⟩
  called := by simp
  children := by
    intro id p hp
    obtain ⟨hid, rfl⟩ := Array.getElem?_eq_some_iff.1 hp
    simp [caller?]
  chain := .singleton 0
  bottom := by simp
  last := by
    intro top htop
    obtain rfl : 0 = top := Option.some.inj htop
    exact .refl

end Arranged

end TxTrace

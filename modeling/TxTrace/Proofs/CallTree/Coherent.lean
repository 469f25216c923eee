import TxTrace.Proofs.CallTree.Move
import TxTrace.Proofs.CallTree.Range

/-!
Every move keeps the order of the frames and their ranges. The tree of a trace is therefore
`Coherent` when its last frame has been closed, however much the steps contradict each other.
-/

namespace TxTrace

open Place

namespace Progress

variable {steps : Array Step} {b b' : Progress}

def places (b : Progress) : Array Place := b.frames.map Frame.place

/-- The open frames, the innermost one first. -/
def line (b : Progress) : List Nat := b.opened.map (·.id)

@[simp]
theorem size_places (b : Progress) : b.places.size = b.frames.size := by
  simp [places]

theorem line_of_opened {top : OpenFrame} {outer : List OpenFrame}
    (hopened : b.opened = top :: outer) : b.line = top.id :: outer.map (·.id) := by
  simp [line, hopened]

theorem line_close {ending : Ending} {top : OpenFrame} {outer : List OpenFrame}
    (hopened : b.opened = top :: outer) :
    (b.close steps ending).line = outer.map (·.id) := by
  simp [line, hopened]

@[simp]
theorem line_add (b : Progress) (f : Frame) : (b.add f).line = b.line := by
  simp [line]

theorem line_enter {top : OpenFrame} {outer : List OpenFrame} (hopened : b.opened = top :: outer)
    (f : Frame) : (b.enter f).line = b.frames.size :: b.line := by
  simp [line, opened_enter b f hopened]

@[simp]
theorem line_setDepth (b : Progress) (depth : Nat) : (b.setDepth depth).line = b.line := by
  unfold Progress.setDepth
  split
  · rfl
  · next top outer hopened => simp [line, hopened]

@[simp]
theorem line_settle (b : Progress) (s : Step) : (b.settle s).line = b.line := by
  simp [line]

theorem places_modify (b : Progress) (id : Nat) {g : Frame → Frame} {k : Place → Place}
    (hg : ∀ f, (g f).place = k f.place) : (b.modify id g).places = b.places.modify id k := by
  apply Array.ext_getElem?
  intro i
  simp only [places, modify, Array.getElem?_map, Array.getElem?_modify]
  split
  · rw [Option.map_map, Option.map_map]
    congr 1
    funext f
    exact hg f
  · rfl

theorem places_modify_self (b : Progress) (id : Nat) {g : Frame → Frame}
    (hg : ∀ f, (g f).place = f.place) : (b.modify id g).places = b.places := by
  rw [places_modify b id (k := fun p => p) hg]
  apply Array.ext_getElem?
  intro i
  rw [Array.getElem?_modify]
  split
  · cases b.places[i]? <;> rfl
  · rfl

theorem calls_places_iff {outer inner : Nat} :
    Calls b.places outer inner ↔ ∃ f, b.frames[inner]? = some f ∧ f.parent = some outer := by
  simp only [Calls, caller?, places, Array.getElem?_map]
  cases b.frames[inner]? <;> simp [Frame.place]

theorem places_add (b : Progress) {f : Frame} {top : OpenFrame} {outer : List OpenFrame}
    (hopened : b.opened = top :: outer) (hchildren : f.children = #[]) (hstop : f.stop = none) :
    (b.add f).places = Place.add b.places top.id b.line.length f.start := by
  apply Array.ext_getElem?
  intro i
  simp only [places, line, getElem?_add, Array.getElem?_map, getElem?_frames_add b f hopened,
    Array.size_map, List.length_map]
  split
  · simp [Frame.place, hchildren, hstop]
  · split
    · rw [Option.map_map, Option.map_map]
      congr 1
      funext g
      simp [Frame.place]
    · rfl

theorem places_close (b : Progress) {ending : Ending} {top : OpenFrame} {outer : List OpenFrame}
    (hopened : b.opened = top :: outer) (hstop : ending.stop = before b.owners.size) :
    (b.close steps ending).places = b.places.modify top.id (Place.finish b.owners.size) := by
  rw [← places_modify b top.id (g := (·.finish steps ending))]
  · rw [places, frames_close b hopened]
    rfl
  · intro f
    simp only [Frame.place, Frame.finish, Place.finish, hstop]
    rfl

theorem Begins.place_eq {f : Frame} (h : Begins steps b f) :
    f.children = #[] ∧ f.stop = none ∧ f.start = b.owners.size := by
  cases h with
  | unseen => exact ⟨rfl, rfl, rfl⟩
  | called status hs hran hkind => exact ⟨rfl, rfl, hran.symm⟩

/-- A tree under construction whose frames stand in order and whose ranges agree with the owners of
    the steps. -/
structure Coherent (b : Progress) : Prop where
  arranged : Arranged b.places b.line
  ranged : Ranged b.places b.line b.owners b.trailing

/-- Only places, open frames, owners and trailing steps matter. -/
theorem Coherent.congr (h : Coherent b) (hplaces : b'.places = b.places) (hline : b'.line = b.line)
    (howners : b'.owners = b.owners) (htrailing : b'.trailing = b.trailing) : Coherent b' := by
  constructor
  · rw [hplaces, hline]
    exact h.arranged
  · rw [hplaces, hline, howners, htrailing]
    exact h.ranged

theorem coherent_ofTransaction (tx : Transaction) (steps : Array Step) :
    Coherent (ofTransaction tx steps) := by
  have hplaces : (ofTransaction tx steps).places = #[⟨none, [], 0, 0, none⟩] := by
    simp [places, ofTransaction, Frame.place]
  constructor
  · rw [hplaces]
    exact Arranged.singleton 0
  · rw [hplaces]
    exact Ranged.singleton

theorem head?_line {top : OpenFrame} {outer : List OpenFrame} (hopened : b.opened = top :: outer) :
    top.id ∈ b.line.head? := by
  simp [line, hopened]

/-- The open frames are frames. -/
theorem Coherent.lt_size_of_mem_line (h : Coherent b) {id : Nat} (hid : id ∈ b.line) :
    id < b.frames.size := by
  have hlt := h.arranged.lt_size_of_mem_line hid
  rwa [size_places] at hlt

/-- A frame begins with a step that was run, or with the next one. -/
theorem Coherent.start_le (h : Coherent b) {id : Nat} {f : Frame} (hf : b.frames[id]? = some f) :
    f.start ≤ b.owners.size := by
  have hplace : b.places[id]? = some f.place := by simp [places, hf]
  exact h.ranged.start_le hplace

/-- An open frame was called by the next one out. -/
theorem Coherent.parent_eq_some (h : Coherent b) {id p : Nat} {rest : List Nat}
    (hline : b.line = id :: p :: rest) {f : Frame} (hf : b.frames[id]? = some f) :
    f.parent = some p := by
  have hchain := h.arranged.chain
  rw [hline, List.isChain_cons_cons] at hchain
  obtain ⟨g, hg, hparent⟩ := calls_places_iff.1 hchain.1
  obtain rfl := Option.some.inj (hf.symm.trans hg)
  exact hparent

/-- The outermost frame is open as long as any is. -/
theorem Coherent.zero_mem_line (h : Coherent b) (hopened : b.opened ≠ []) : 0 ∈ b.line := by
  obtain ⟨top, outer, hcons⟩ := List.exists_cons_of_ne_nil hopened
  have htop := head?_line hcons
  rw [h.arranged.mem_line_iff htop]
  exact h.arranged.encloses_zero (h.arranged.lt_size_of_mem_line (List.mem_of_mem_head? htop))

/-- Every frame but the outermost one has a caller. -/
theorem Coherent.isSome_parent (h : Coherent b) {id : Nat} {f : Frame} (hf : b.frames[id]? = some f)
    (hid : id ≠ 0) : f.parent.isSome := by
  obtain ⟨c, rfl⟩ := Nat.exists_eq_succ_of_ne_zero hid
  have hplace : b.places[c + 1]? = some f.place := by simp [places, hf]
  obtain ⟨p, _, hparent, _⟩ := h.arranged.called hplace
  have hparent' : f.parent = some p := hparent
  rw [hparent']
  rfl

theorem Coherent.close (h : Coherent b) {ending : Ending}
    (hstop : ending.stop = before b.owners.size) : Coherent (b.close steps ending) := by
  cases hopened : b.opened with
  | nil =>
    rw [close_of_nil ending hopened]
    exact h
  | cons top outer =>
    have hline := line_of_opened hopened
    constructor
    · have htail : Arranged b.places (outer.map (·.id)) := by
        have htail := h.arranged.tail
        rwa [hline, List.tail_cons] at htail
      rw [places_close b hopened hstop, line_close hopened]
      exact htail.modify top.id (fun _ => rfl) (fun _ => rfl) (fun _ => rfl)
    · rw [places_close b hopened hstop, line_close hopened, owners_close, trailing_close]
      exact h.ranged.close hline

theorem Coherent.codeless (h : Coherent b) {f : Frame} (hopened : b.opened ≠ [])
    (hbegins : Begins steps b f) :
    Coherent { b.add f with settlement := some ⟨b.frames.size, true⟩ } := by
  obtain ⟨top, outer, hcons⟩ := List.exists_cons_of_ne_nil hopened
  obtain ⟨hchildren, hstop, hstart⟩ := hbegins.place_eq
  have hplaces := places_add b hcons hchildren hstop
  rw [hstart] at hplaces
  have hadd : Coherent (b.add f) := by
    constructor
    · rw [hplaces, line_add]
      exact (h.arranged.add (head?_line hcons) b.owners.size).1
    · rw [hplaces, line_add, owners_add, trailing_add]
      exact h.ranged.add h.arranged (head?_line hcons) (.inl rfl)
  exact hadd.congr rfl rfl rfl rfl

theorem Coherent.enter (h : Coherent b) {f : Frame} (hopened : b.opened ≠ [])
    (hbegins : Begins steps b f) : Coherent (b.enter f) := by
  obtain ⟨top, outer, hcons⟩ := List.exists_cons_of_ne_nil hopened
  obtain ⟨hchildren, hstop, hstart⟩ := hbegins.place_eq
  have hplaces : (b.enter f).places = Place.add b.places top.id b.line.length b.owners.size := by
    rw [← hstart, ← places_add b hcons hchildren hstop, places, places, frames_enter]
  have hline : (b.enter f).line = b.places.size :: b.line := by
    rw [line_enter hcons, size_places]
  constructor
  · rw [hplaces, hline]
    exact (h.arranged.add (head?_line hcons) b.owners.size).2
  · rw [hplaces, hline, owners_enter, trailing_enter]
    exact h.ranged.add h.arranged (head?_line hcons) (.inr rfl)

theorem Coherent.own (h : Coherent b) (hopened : b.opened ≠ []) : Coherent b.own := by
  obtain ⟨top, outer, hcons⟩ := List.exists_cons_of_ne_nil hopened
  have howners : b.own.owners = b.owners.push top.id := by simp [Progress.own, hcons]
  constructor
  · exact h.arranged
  · rw [howners]
    exact h.ranged.own h.arranged (head?_line hcons)

theorem Coherent.trail (h : Coherent b) (hclosed : b.opened = []) :
    Coherent (b.trail b.owners.size) := by
  have hline : b.line = [] := by simp [line, hclosed]
  have ha : Arranged b.places [] := hline ▸ h.arranged
  have hr : Ranged b.places [] b.owners b.trailing := hline ▸ h.ranged
  constructor
  · exact h.arranged
  · show Ranged b.places b.line (b.owners.push 0) _
    rw [hline]
    exact hr.trail ha rfl

/-- When no step has run, the outermost frame may be closed without a range. -/
theorem Coherent.finishEmpty (h : Coherent b) (failed : Option Bool) (hnone : b.owners.size = 0) :
    Coherent (b.finishEmpty failed) := by
  have hplaces : (b.finishEmpty failed).places = b.places := by
    have hmodify (status : Status) : (b.modify 0 ({ · with status })).places = b.places :=
      places_modify_self b 0 fun _ => rfl
    exact hmodify _
  have hline : (b.finishEmpty failed).line = [] := rfl
  have howners : b.owners = #[] := Array.size_eq_zero_iff.1 hnone
  constructor
  · rw [hplaces, hline]
    exact { h.arranged with chain := .nil, bottom := by simp, last := by simp }
  · rw [hplaces, hline]
    refine { h.ranged with spans_iff := ?_, trails := ?_ }
    · intro j owner howner
      have hnil : (b.finishEmpty failed).owners = #[] := howners
      rw [hnil] at howner
      simp at howner
    · intro first count ht
      obtain ⟨_, hcount, hran⟩ := h.ranged.trails ht
      exact ⟨rfl, hcount, hran⟩

theorem Coherent.log (h : Coherent b) (i : Nat) (s : Step) (topics : Nat) :
    Coherent (b.log i s topics) := by
  unfold Progress.log
  split
  · exact h.congr rfl rfl rfl rfl
  · exact h.congr (places_modify_self b _ fun _ => rfl) rfl rfl rfl

theorem Coherent.settle (h : Coherent b) (s : Step) : Coherent (b.settle s) := by
  unfold Progress.settle
  split
  · exact h
  · next st _ =>
    exact h.congr (places_modify_self b st.id fun _ => rfl) rfl rfl rfl

theorem Coherent.setDepth (h : Coherent b) (depth : Nat) : Coherent (b.setDepth depth) := by
  refine h.congr ?_ (line_setDepth b depth) (owners_setDepth b depth) (trailing_setDepth b depth)
  rw [places, frames_setDepth, places]

theorem Move.coherent (hmove : Move steps b b') (h : Coherent b) : Coherent b' := by
  cases hmove with
  | record a => exact h.congr rfl rfl rfl rfl
  | close hends => exact h.close hends.stop_eq
  | enter hopened hbegins => exact h.enter hopened hbegins
  | codeless hopened hbegins => exact h.codeless hopened hbegins
  | setDepth depth => exact h.setDepth depth
  | settle hopened hs => exact h.settle _
  | own hopened => exact h.own hopened
  | log hopened hs hran hkind => exact h.log _ _ _
  | trail hclosed => exact h.trail hclosed
  | finishEmpty failed hnone => exact h.finishEmpty failed hnone

theorem coherent_closed (tx : Transaction) (trace : Trace) : Coherent (closed tx trace) :=
  (moves_closed tx trace).preserves Move.coherent (coherent_ofTransaction tx trace.steps)

end Progress

end TxTrace

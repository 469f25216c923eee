import TxTrace.Proofs.CallTree.Persistence
import TxTrace.Proofs.CallTree.Standing

/-!
Where frames begin. A frame whose call was seen begins with the step after the call, which is a step of
its caller; any other frame but the outermost one runs the step at which it begins
(`CallTree.Sited`). So frames stop in the order in which they were called, and before their callers
(`CallTree.WellFormed.lastStep_lt`, `CallTree.WellFormed.lastStep_le_of_mem_ancestors`).
-/

namespace TxTrace

open Place

namespace Progress

variable {tx : Transaction} {steps : Array Step} {b b' : Progress}

/-- Later frames come between none that were there. -/
theorem Extends.encloses (hextends : Extends b b') {outer inner : Nat}
    (h : Encloses b.places outer inner) : Encloses b'.places outer inner := by
  have hle : Calls b.places ≤ Calls b'.places := by
    intro outer inner hcalls
    obtain ⟨f, hf, hparent⟩ := calls_places_iff.1 hcalls
    obtain ⟨f', hf', hsame⟩ := hextends.frames hf
    exact calls_places_iff.2 ⟨f', hf', hsame.parent.trans hparent⟩
  exact Relation.ReflTransGen.mono hle outer inner h

/-- What the steps say of where the frames of a tree under construction begin. -/
structure Sited (b : Progress) : Prop where
  /-- A call that was seen is a step of the caller, and the frame begins with the next one. -/
  called : ∀ {id : Nat} {f : Frame} {j : Nat}, b.frames[id]? = some f → f.callStep = some j →
    f.start = j + 1 ∧ ∃ p, f.parent = some p ∧ b.owners[j]? = some p
  /-- The frames before one that was called had begun when the call was made. -/
  later : ∀ {a id : Nat} {g f : Frame} {j : Nat}, a < id → b.frames[a]? = some g →
    b.frames[id]? = some f → f.callStep = some j → g.start ≤ j
  /-- A frame that was not seen to be called runs its first step, or one inside it does. -/
  unseen : ∀ {id : Nat} {f : Frame}, b.frames[id]? = some f → id ≠ 0 → f.callStep = none →
    ∃ o, b.owners[f.start]? = some o ∧ Encloses b.places id o

/-- Frames keep their sites. New ones that were not seen to be called need only run their first step. -/
theorem Sited.of_extends (h : Sited b) (hextends : Extends b b')
    (hnew : ∀ {id : Nat} {f' : Frame}, b'.frames[id]? = some f' → b.frames.size ≤ id →
      f'.callStep = none ∧ ∃ o, b'.owners[f'.start]? = some o ∧ Encloses b'.places id o) :
    Sited b' := by
  have hold {id : Nat} {f' : Frame} (hf' : b'.frames[id]? = some f') :
      (∃ f, b.frames[id]? = some f ∧ f.SameCall f') ∨ b.frames.size ≤ id := by
    rcases Nat.lt_or_ge id b.frames.size with hid | hid
    · have hf : b.frames[id]? = some b.frames[id] := Array.getElem?_eq_getElem hid
      obtain ⟨f'', hf'', hsame⟩ := hextends.frames hf
      obtain rfl := Option.some.inj (hf'.symm.trans hf'')
      exact .inl ⟨_, hf, hsame⟩
    · exact .inr hid
  have hcalled {id j : Nat} {f' : Frame} (hf' : b'.frames[id]? = some f')
      (hj : f'.callStep = some j) : ∃ f, b.frames[id]? = some f ∧ f.SameCall f' := by
    rcases hold hf' with hf | hid
    · exact hf
    · rw [(hnew hf' hid).1] at hj
      cases hj
  constructor
  case called =>
    intro id f' j hf' hj
    obtain ⟨f, hf, hsame⟩ := hcalled hf' hj
    obtain ⟨hstart, p, hparent, howner⟩ := h.called hf (hsame.callStep.symm.trans hj)
    exact ⟨hsame.start.trans hstart, p, hsame.parent.trans hparent, hextends.owners howner⟩
  case later =>
    intro a id g' f' j ha hg' hf' hj
    obtain ⟨f, hf, hsame⟩ := hcalled hf' hj
    have hlt : a < b.frames.size := Nat.lt_trans ha (Array.getElem?_eq_some_iff.1 hf).1
    rcases hold hg' with ⟨g, hg, hsame'⟩ | hid
    · rw [hsame'.start]
      exact h.later ha hg hf (hsame.callStep.symm.trans hj)
    · omega
  case unseen =>
    intro id f' hf' hid hnone
    rcases hold hf' with ⟨f, hf, hsame⟩ | hlarge
    · obtain ⟨o, howner, hencl⟩ := h.unseen hf hid (hsame.callStep.symm.trans hnone)
      rw [hsame.start]
      exact ⟨o, hextends.owners howner, hextends.encloses hencl⟩
    · exact (hnew hf' hlarge).2

theorem Sited.of_size (h : Sited b) (hextends : Extends b b')
    (hsize : b'.frames.size = b.frames.size) : Sited b' := by
  refine h.of_extends hextends fun hf' hid => ?_
  have hlt := (Array.getElem?_eq_some_iff.1 hf').1
  omega

theorem Sited.congr (h : Sited b) (hframes : b'.frames = b.frames) (howners : b'.owners = b.owners) :
    Sited b' := by
  refine h.of_size ⟨?_, ?_⟩ (by rw [hframes])
  · rw [howners]
    exact fun howner => howner
  · rw [hframes]
    exact fun hf => ⟨_, hf, .refl _⟩

theorem size_frames_closeAbove (i depth : Nat) (b : Progress) :
    (b.closeAbove steps i depth).frames.size = b.frames.size := by
  fun_induction closeAbove steps i depth b with
  | case1 b top next rest hopened hlt ih => rw [ih, size_frames_close]
  | case2 => rfl
  | case3 => rfl

/-! ### Frames without a call -/

/-- The frame at `id` was not seen to be called, begins with the step at `i` and is open. -/
def Unseen (i id : Nat) (f : Frame) (b : Progress) : Prop :=
  f.callStep = none ∧ f.start = i ∧ id ∈ b.line

/-- If the frames from `n` on were opened without a call, so they are after more of them. -/
theorem unseen_of_enterUnseen (hopened : b.opened ≠ []) {i n count : Nat}
    (h : ∀ {id : Nat} {f : Frame}, b.frames[id]? = some f → n ≤ id → Unseen i id f b) :
    ∀ {id : Nat} {f : Frame}, (b.enterUnseen i count).frames[id]? = some f → n ≤ id →
      Unseen i id f (b.enterUnseen i count) := by
  induction count generalizing b with
  | zero => exact h
  | succ count ih =>
    obtain ⟨top, outer, hcons⟩ := List.exists_cons_of_ne_nil hopened
    refine ih (enter_ne_nil b _ hopened) fun {id f} hf hid => ?_
    have hline {id : Nat} (hmem : id = b.frames.size ∨ id ∈ b.line) :
        id ∈ (b.enter { parent := none, callType := .call, level := 0, start := i }).line := by
      rw [line_enter hcons]
      exact List.mem_cons.2 hmem
    rw [frames_enter, getElem?_frames_add b _ hcons] at hf
    split at hf
    · next hsize =>
      obtain rfl := Option.some.inj hf
      exact ⟨rfl, rfl, hline (.inl hsize)⟩
    · split at hf
      · obtain ⟨g, hg, rfl⟩ := Option.map_eq_some_iff.1 hf
        obtain ⟨hnone, hstart, hmem⟩ := h hg hid
        exact ⟨hnone, hstart, hline (.inr hmem)⟩
      · obtain ⟨hnone, hstart, hmem⟩ := h hf hid
        exact ⟨hnone, hstart, hline (.inr hmem)⟩

/-- The frames that are opened to bring the tree to the depth of a step were not seen to be called. -/
theorem Aligned.unseen {i depth : Nat} (h : Aligned steps i depth b b') {id : Nat} {f : Frame}
    (hf : b'.frames[id]? = some f) (hid : b.frames.size ≤ id) : Unseen i id f b' := by
  have hlt := (Array.getElem?_eq_some_iff.1 hf).1
  cases h with
  | level hopened hdepth => omega
  | halted hopened houter hdepth =>
    rw [size_frames_close] at hlt
    omega
  | @jumped top outer hopened hne hnot =>
    unfold Progress.realign at hf hlt ⊢
    dsimp only at hf hlt ⊢
    unfold Unseen
    rw [frames_setDepth] at hf hlt
    rw [line_setDepth]
    split at hf
    · next hbelow =>
      rw [if_pos hbelow, size_frames_closeAbove] at hlt
      exact absurd hlt (Nat.not_lt.2 hid)
    · next hbelow =>
      rw [if_neg hbelow]
      refine unseen_of_enterUnseen (n := b.frames.size) ?_ (fun hg hsize => ?_) hf hid
      · rw [opened_record, hopened]
        exact List.cons_ne_nil top outer
      · exact absurd (Array.getElem?_eq_some_iff.1 hg).1 (Nat.not_lt.2 hsize)

/-! ### Steps -/

/-- A step gives a site to the frames that it shows to be open. -/
theorem Sited.arrive (h : Sited b) (hb : Contiguous b) (hopened : b.opened ≠ [])
    {s : Step} {top : OpenFrame} {outer : List OpenFrame} (hs : steps[b.owners.size]? = some s)
    (harrived : Arrived b.owners.size s top outer (b.arrive steps b.owners.size s)) :
    Sited (b.arrive steps b.owners.size s) := by
  refine h.of_extends (moves_arrive b hopened hs).extends fun {id f'} hf' hid => ?_
  -- What the step settles has no part in it.
  have hframe : ∃ f, (b.align steps b.owners.size s.depth).frames[id]? = some f ∧ f.SameCall f' := by
    have hsettled : ((b.align steps b.owners.size s.depth).settle s).frames[id]? = some f' := hf'
    obtain ⟨f, hf, rfl | ⟨st, _, _, rfl⟩⟩ := exists_of_frames_settle hsettled
    · exact ⟨f', hf, .refl f'⟩
    · exact ⟨f, hf, f.sameCall_settle s st.needsOutput⟩
  obtain ⟨f, hf, hsame⟩ := hframe
  have haligned : Aligned steps b.owners.size s.depth b (b.align steps b.owners.size s.depth) :=
    aligned_align hb hopened _ _
  obtain ⟨hnone, hstart, hmem⟩ := haligned.unseen hf hid
  have hline : (b.arrive steps b.owners.size s).line = (b.align steps b.owners.size s.depth).line := by
    rw [line, opened_arrive, line]
  refine ⟨hsame.callStep.trans hnone, top.id, ?_, ?_⟩
  · rw [hsame.start, hstart]
    exact harrived.owner
  · rw [← harrived.coherent.arranged.mem_line_iff (head?_line harrived.opened), hline]
    exact hmem

/-- No frame begins after the step at which the tree has arrived. -/
theorem start_le_of_arrive (hc : Coherent b) {s : Step} (hs : steps[b.owners.size]? = some s) {id : Nat}
    {f : Frame} (hf : (b.arrive steps b.owners.size s).frames[id]? = some f) :
    f.start ≤ b.owners.size := by
  have hsettled : Coherent ((b.align steps b.owners.size s.depth).settle s) :=
    ((moves_align b hs).preserves Move.coherent hc).settle s
  have hf' : ((b.align steps b.owners.size s.depth).settle s).frames[id]? = some f := hf
  have hle := hsettled.start_le hf'
  rwa [owners_settle, owners_align] at hle

/-- A frame that the step at `i` calls begins with the next one. -/
theorem Sited.add (h : Sited b) {i : Nat} {top : OpenFrame} {outer : List OpenFrame}
    (hopened : b.opened = top :: outer) (howner : b.owners[i]? = some top.id)
    (hstart : ∀ {id : Nat} {f : Frame}, b.frames[id]? = some f → f.start ≤ i) {f : Frame}
    (hcall : f.callStep = some i) (hbegin : f.start = i + 1) : Sited (b.add f) := by
  have hextends : Extends b (b.add f) :=
    .of_add (hopened ▸ List.cons_ne_nil top outer) rfl (owners_add b f)
  have hold {id : Nat} {f' : Frame} (hf' : (b.add f).frames[id]? = some f') :
      (∃ g, b.frames[id]? = some g ∧ g.SameCall f') ∨
        id = b.frames.size ∧ f' = { f with parent := some top.id, level := b.opened.length } :=
    exists_of_frames_add hopened hf' .refl fun _ _ => ⟨rfl, rfl, rfl, rfl, rfl, rfl, rfl⟩
  constructor
  case called =>
    intro id f' j hf' hj
    rcases hold hf' with ⟨g, hg, hsame⟩ | ⟨_, rfl⟩
    · obtain ⟨hg', p, hparent, hp⟩ := h.called hg (hsame.callStep.symm.trans hj)
      exact ⟨hsame.start.trans hg', p, hsame.parent.trans hparent, hextends.owners hp⟩
    · obtain rfl := Option.some.inj (hcall.symm.trans hj)
      exact ⟨hbegin, top.id, rfl, hextends.owners howner⟩
  case later =>
    intro a id g' f' j ha hg' hf' hj
    rcases hold hf' with ⟨f'', hf'', hsame⟩ | ⟨hid, rfl⟩
    · rcases hold hg' with ⟨g, hg, hsame'⟩ | ⟨hsize, _⟩
      · rw [hsame'.start]
        exact h.later ha hg hf'' (hsame.callStep.symm.trans hj)
      · have hlt := (Array.getElem?_eq_some_iff.1 hf'').1
        omega
    · obtain rfl := Option.some.inj (hcall.symm.trans hj)
      rcases hold hg' with ⟨g, hg, hsame'⟩ | ⟨hsize, _⟩
      · rw [hsame'.start]
        exact hstart hg
      · omega
  case unseen =>
    intro id f' hf' hid hnone
    rcases hold hf' with ⟨g, hg, hsame⟩ | ⟨_, rfl⟩
    · obtain ⟨o, ho, hencl⟩ := h.unseen hg hid (hsame.callStep.symm.trans hnone)
      rw [hsame.start]
      exact ⟨o, hextends.owners ho, hextends.encloses hencl⟩
    · rw [hcall] at hnone
      cases hnone

/-- What an instruction does gives a site to the frame that it calls. -/
theorem Arrived.sited {i : Nat} {s : Step} {top : OpenFrame} {outer : List OpenFrame}
    (harrived : Arrived i s top outer b) (h : Sited b)
    (hstart : ∀ {id : Nat} {f : Frame}, b.frames[id]? = some f → f.start ≤ i) :
    Sited (b.execute steps i s) := by
  unfold Progress.execute
  split
  · next type _ =>
    have hchecked : Sited (b.checkOperands i s type) :=
      h.congr (frames_checkOperands i s type b) (owners_checkOperands i s type b)
    have hadd {f : Frame} (hcall : f.callStep = some i) (hbegin : f.start = i + 1) :
        Sited ((b.checkOperands i s type).add f) := by
      refine hchecked.add ((opened_checkOperands i s type b).trans harrived.opened) ?_ ?_ hcall hbegin
      · rw [owners_checkOperands]
        exact harrived.owner
      · rw [frames_checkOperands]
        exact hstart
    by_cases hhalts : s.error.isSome ∨ (steps[i + 1]?).any (·.depth < s.depth)
    · rw [call_eq_self hhalts]
      exact h
    · cases hnext : (steps[i + 1]?).filter (·.depth = s.depth) with
      | some next =>
        rw [call_eq_add hhalts hnext]
        exact (hadd rfl rfl).congr rfl rfl
      | none =>
        rw [call_eq_enter hhalts hnext]
        exact (hadd rfl rfl).congr (frames_enter _ _) ((owners_enter _ _).trans (owners_add _ _).symm)
  · refine h.of_size (.of_modify (frames_close b harrived.opened) (owners_close b _)
      fun f => f.sameCall_finish steps _) (size_frames_close b _)
  · unfold Progress.log
    split
    · exact h.congr rfl rfl
    · exact h.of_size (extends_modify b _ fun f => f.sameCall_log _) (size_frames_modify b _ _)
  · exact h

theorem sited_ofTransaction (tx : Transaction) (steps : Array Step) :
    Sited (ofTransaction tx steps) := by
  have hroot {id : Nat} {f : Frame} (hf : (ofTransaction tx steps).frames[id]? = some f) :
      id = 0 ∧ f.callStep = none := by
    obtain ⟨hlt, rfl⟩ := Array.getElem?_eq_some_iff.1 hf
    simp only [ofTransaction, List.size_toArray, List.length_cons, List.length_nil] at hlt ⊢
    obtain rfl : id = 0 := by omega
    exact ⟨rfl, rfl⟩
  constructor
  case called =>
    intro id f j hf hj
    rw [(hroot hf).2] at hj
    cases hj
  case later =>
    intro a id g f j _ _ hf hj
    rw [(hroot hf).2] at hj
    cases hj
  case unseen => exact fun hf hid _ => absurd (hroot hf).1 hid

theorem sited_step {trace : Trace} {n : Nat} {s : Step} (hs : trace.steps[n]? = some s)
    (h : Sited (reached tx trace.steps n)) : Sited (reached tx trace.steps (n + 1)) := by
  have hle : n ≤ trace.steps.size := Nat.le_of_lt (Array.getElem?_eq_some_iff.1 hs).1
  have hran := size_owners_reached tx hle
  rw [reached_succ hs]
  by_cases hopened : (reached tx trace.steps n).opened = []
  · rw [step_eq_trail hopened]
    exact h.of_size (.of_push rfl rfl) rfl
  · have hb := contiguous_reached tx hle
    have hc := coherent_reached tx hle
    obtain ⟨top, outer, harrived⟩ := arrived_reached hs hb hopened
    rw [step_eq_execute hopened]
    generalize reached tx trace.steps n = b at *
    subst hran
    exact harrived.sited (h.arrive hb hopened hs harrived) (start_le_of_arrive hc hs)

theorem sited_reached (tx : Transaction) {trace : Trace} {n : Nat} (hn : n ≤ trace.steps.size) :
    Sited (reached tx trace.steps n) := by
  induction n with
  | zero => exact sited_ofTransaction tx trace.steps
  | succ n ih => exact sited_step (Array.getElem?_eq_getElem hn) (ih (Nat.le_of_succ_le hn))

theorem sited_closed (tx : Transaction) (trace : Trace) : Sited (closed tx trace) := by
  refine closed_preserves (sited_reached tx (Nat.le_refl _)) ?_ ?_ ?_
  · intro b hnone h
    have hmove : Move trace.steps b (b.finishEmpty trace.failed) := .finishEmpty b trace.failed hnone
    exact h.of_size hmove.extends (by simp [Progress.finishEmpty])
  · intro b ending hends h
    exact h.of_size (Move.close b hends).extends (size_frames_close b ending)
  · intro b a h
    exact h.congr rfl rfl

end Progress

theorem Frame.lastStep_of_stop {f : Frame} {last : Nat} (h : f.stop = some last) :
    f.lastStep = last := by
  rw [lastStep, h]
  rfl

theorem Frame.lastStep_of_callStep {f : Frame} {j : Nat} (hstop : f.stop = none)
    (hcall : f.callStep = some j) : f.lastStep = j := by
  rw [lastStep, hstop, hcall]
  rfl

namespace CallTree

variable {tree : CallTree} {steps : Nat}

/-- What the steps say of where the frames of a tree begin. -/
structure Sited (tree : CallTree) : Prop where
  ordered : ∀ {a id g f}, a ≤ id → tree.frame? a = some g → tree.frame? id = some f → g.start ≤ f.start
  /-- A call that was seen is a step of the caller, and the frame begins with the next one. -/
  called : ∀ {id f j}, tree.frame? id = some f → f.callStep = some j →
    f.start = j + 1 ∧ ∃ p, f.parent = some p ∧ tree.owner? j = some p
  /-- The frames before one that was called had begun when the call was made. -/
  later : ∀ {a id g f j}, a < id → tree.frame? a = some g → tree.frame? id = some f →
    f.callStep = some j → g.start ≤ j
  /-- A frame that was not seen to be called ran. -/
  ran : ∀ {id f}, tree.frame? id = some f → 0 < id → f.callStep = none → f.stop.isSome

/-- A frame takes in the steps of the frames inside it. -/
theorem covers_of_encloses (tx : Transaction) (trace : Trace) (r : Registry) {i id o : Nat} {f : Frame}
    (hf : ((ofTrace tx trace).1.named r).1.frame? id = some f)
    (howner : (Progress.closed tx trace).owners[i]? = some o)
    (hencl : Encloses (Progress.closed tx trace).places id o) : f.Covers i := by
  have howner' : ((ofTrace tx trace).1.named r).1.owners[i]? = some o := by
    rw [owners_named, Progress.owners_ofTrace]
    exact howner
  have hencl' : Encloses ((ofTrace tx trace).1.named r).1.places id o := by
    have hsame (p : Place) : (stretch (Progress.closed tx trace).trailing p).parent = p.parent := rfl
    rw [places_named, places_ofTrace, encloses_modify hsame]
    exact hencl
  exact (spans_iff_covers hf).1 (((ranged_named_ofTrace tx trace r).spans_iff howner' id).2 hencl')

theorem sited_named_ofTrace (tx : Transaction) (trace : Trace) (r : Registry) :
    ((ofTrace tx trace).1.named r).1.Sited := by
  have hclosed := Progress.sited_closed tx trace
  have hranged := ranged_named_ofTrace tx trace r
  have hframe {id : Nat} {f : Frame} (hf : ((ofTrace tx trace).1.named r).1.frame? id = some f) :
      ∃ g, (Progress.closed tx trace).frames[id]? = some g ∧ g.SameCall f := by
    rw [frame?_named_ofTrace] at hf
    obtain ⟨g, hg, rfl⟩ := Option.map_eq_some_iff.1 hf
    exact ⟨g, hg, sameCall_finalFrame tx trace r id g⟩
  constructor
  case ordered =>
    exact fun hle hg hf => hranged.start_mono hle (places_eq_some hg) (places_eq_some hf)
  case called =>
    intro id f j hf hj
    obtain ⟨g, hg, hsame⟩ := hframe hf
    obtain ⟨hstart, p, hparent, howner⟩ := hclosed.called hg (hsame.callStep.symm.trans hj)
    exact ⟨hsame.start.trans hstart, p, hsame.parent.trans hparent,
      owner?_named_ofTrace tx trace r howner⟩
  case later =>
    intro a id g f j ha hg hf hj
    obtain ⟨g', hg', hsame'⟩ := hframe hg
    obtain ⟨f', hf', hsame⟩ := hframe hf
    rw [hsame'.start]
    exact hclosed.later ha hg' hf' (hsame.callStep.symm.trans hj)
  case ran =>
    intro id f hf hid hnone
    obtain ⟨g, hg, hsame⟩ := hframe hf
    obtain ⟨o, howner, hencl⟩ := hclosed.unseen hg (Nat.ne_of_gt hid) (hsame.callStep.symm.trans hnone)
    obtain ⟨last, hlast, _⟩ := covers_of_encloses tx trace r hf howner hencl
    rw [hlast]
    rfl

/-! ### Where frames stop -/

/-- The step at which a frame inside stopped is known: its last one, or its call if it ran none. -/
theorem Sited.stop_or_callStep (h : tree.Sited) {id : Nat} {f : Frame}
    (hf : tree.frame? id = some f) (hid : 0 < id) : f.stop.or f.callStep = some f.lastStep := by
  unfold Frame.lastStep
  cases hstop : f.stop with
  | some last => rfl
  | none =>
    cases hcall : f.callStep with
    | some j => rfl
    | none =>
      have hran := h.ran hf hid hcall
      rw [hstop] at hran
      cases hran

/-- The owner of a step runs it, and at a higher level than the other frames that do. -/
theorem WellFormed.of_owner? (h : tree.WellFormed steps) {i id : Nat}
    (hid : tree.owner? i = some id) : ∃ f, tree.frame? id = some f ∧ f.Covers i ∧
      ∀ id' f', tree.frame? id' = some f' → f'.Covers i → id' ≠ id → f'.level < f.level := by
  have hi : i < steps := by
    have howner := (Option.filter_eq_some_iff.1 hid).1
    rw [← h.owners_size]
    exact (Array.getElem?_eq_some_iff.1 howner).1
  obtain ⟨id', f, hid', hrest⟩ := h.owner hi
  obtain rfl := Option.some.inj (hid.symm.trans hid')
  exact ⟨f, hrest⟩

/-- A frame that is not the outermost one is called from a frame before it, one level up. -/
theorem WellFormed.of_parent (h : tree.WellFormed steps) {id p : Nat} {f : Frame}
    (hf : tree.frame? id = some f) (hparent : f.parent = some p) :
    p < id ∧ ∃ g, tree.frame? p = some g ∧ f.level = g.level + 1 := by
  rcases Nat.eq_zero_or_pos id with rfl | hid
  · obtain rfl := Option.some.inj (tree.frame?_root.symm.trans hf)
    rw [h.root.1] at hparent
    cases hparent
  · obtain ⟨p', g, hparent', hlt, hg, hlevel⟩ := h.caller hf hid
    obtain rfl := Option.some.inj (hparent.symm.trans hparent')
    exact ⟨hlt, g, hg, hlevel⟩

/-- Of two frames that were called from the same one, that called first stopped first. -/
theorem WellFormed.lastStep_lt (h : tree.WellFormed steps) (hs : tree.Sited) {a id p : Nat}
    {g f : Frame} (ha : a < id) (hg : tree.frame? a = some g) (hf : tree.frame? id = some f)
    (hgp : g.parent = some p) (hfp : f.parent = some p) : g.lastStep < f.lastStep := by
  have hpos : 0 < a := Nat.lt_of_le_of_lt (Nat.zero_le p) (h.of_parent hg hgp).1
  have hordered := hs.ordered (Nat.le_of_lt ha) hg hf
  cases hcall : f.callStep with
  | none =>
    obtain ⟨last, hlast⟩ := Option.isSome_iff_exists.1 (hs.ran hf (Nat.lt_trans hpos ha) hcall)
    have hstart := (h.range hf hlast).1
    rw [Frame.lastStep_of_stop hlast]
    cases hstop : g.stop with
    | some stop =>
      have hlt := h.disjoint ha hg hf hgp hfp hstop (hlast ▸ rfl)
      rw [Frame.lastStep_of_stop hstop]
      omega
    | none =>
      have hend := hs.stop_or_callStep hg hpos
      rw [hstop, Option.none_or] at hend
      have hbegin := (hs.called hg hend).1
      omega
  | some j =>
    -- The caller runs the call, so the frame before has stopped.
    obtain ⟨hbegin, p', hparent, howner⟩ := hs.called hf hcall
    obtain rfl := Option.some.inj (hfp.symm.trans hparent)
    have hle : j ≤ f.lastStep := by
      cases hstop : f.stop with
      | some stop =>
        have hstart := (h.range hf hstop).1
        rw [Frame.lastStep_of_stop hstop]
        omega
      | none => rw [Frame.lastStep_of_callStep hstop hcall]
    have hlater := hs.later ha hg hf hcall
    have hend := hs.stop_or_callStep hg hpos
    cases hstop : g.stop with
    | some stop =>
      obtain ⟨f', hf', _, hhighest⟩ := h.of_owner? howner
      obtain ⟨_, f'', hf'', hlevel⟩ := h.of_parent hg hgp
      obtain rfl := Option.some.inj (hf'.symm.trans hf'')
      have hnot : ¬ g.Covers j := by
        intro hcovers
        have hlt := hhighest a g hg hcovers (Nat.ne_of_gt (h.of_parent hg hgp).1)
        omega
      have hstop' : ¬ j ≤ stop := fun hle => hnot ⟨stop, hstop, hlater, hle⟩
      rw [Frame.lastStep_of_stop hstop]
      omega
    | none =>
      rw [hstop, Option.none_or] at hend
      have hbegin' := (hs.called hg hend).1
      omega

/-- A caller stops no earlier than what it called. -/
theorem WellFormed.lastStep_le_of_parent (h : tree.WellFormed steps) (hs : tree.Sited) {id p : Nat}
    {f g : Frame} (hf : tree.frame? id = some f) (hparent : f.parent = some p)
    (hg : tree.frame? p = some g) : f.lastStep ≤ g.lastStep := by
  have hpos : 0 < id := Nat.lt_of_le_of_lt (Nat.zero_le p) (h.of_parent hf hparent).1
  cases hstop : f.stop with
  | some last =>
    obtain ⟨last', hlast', _, hle⟩ := h.nested hf hparent hg hstop
    rw [Frame.lastStep_of_stop hstop, Frame.lastStep_of_stop hlast']
    exact hle
  | none =>
    have hend := hs.stop_or_callStep hf hpos
    rw [hstop, Option.none_or] at hend
    obtain ⟨_, p', hparent', howner⟩ := hs.called hf hend
    obtain rfl := Option.some.inj (hparent.symm.trans hparent')
    obtain ⟨g', hg', ⟨last, hlast, _, hle⟩, _⟩ := h.of_owner? howner
    obtain rfl := Option.some.inj (hg.symm.trans hg')
    rw [Frame.lastStep_of_stop hlast]
    exact hle

theorem WellFormed.parent?_eq (h : tree.WellFormed steps) {id p : Nat} {f : Frame}
    (hf : tree.frame? id = some f) (hparent : f.parent = some p) : tree.parent? id = some p := by
  rw [parent?, hf, Option.bind_eq_bind, Option.bind_some, hparent, Option.filter_some,
    if_pos (decide_eq_true (h.of_parent hf hparent).1)]

theorem ancestors_of_parent_none {id : Nat} {f : Frame} (hf : tree.frame? id = some f)
    (hparent : f.parent = none) : tree.ancestors id = [] := by
  have hnone : tree.parent? id = none := by
    rw [parent?, hf, Option.bind_eq_bind, Option.bind_some, hparent]
    rfl
  rw [ancestors]
  split
  · next p hp =>
    rw [hnone] at hp
    cases hp
  · rfl

/-- The frames around a frame are its caller and those around that. -/
theorem WellFormed.ancestors_eq (h : tree.WellFormed steps) {id p : Nat} {f : Frame}
    (hf : tree.frame? id = some f) (hparent : f.parent = some p) :
    tree.ancestors id = p :: tree.ancestors p := by
  have hcaller := h.parent?_eq hf hparent
  rw [ancestors]
  split
  · next p' hp =>
    obtain rfl := Option.some.inj (hcaller.symm.trans hp)
    rfl
  · next hnone =>
    rw [hcaller] at hnone
    cases hnone

/-- A frame stops no earlier than those inside it, which stand at higher levels. -/
theorem WellFormed.lastStep_le_of_mem_ancestors (h : tree.WellFormed steps) (hs : tree.Sited)
    {id c : Nat} {g f : Frame} (hg : tree.frame? id = some g) (hf : tree.frame? c = some f)
    (hmem : id ∈ tree.ancestors c) : f.lastStep ≤ g.lastStep ∧ g.level < f.level := by
  induction c using Nat.strong_induction_on generalizing f with
  | h c ih =>
    cases hparent : f.parent with
    | none =>
      rw [ancestors_of_parent_none hf hparent] at hmem
      cases hmem
    | some p =>
      obtain ⟨hlt, f', hf', hlevel⟩ := h.of_parent hf hparent
      have hle := h.lastStep_le_of_parent hs hf hparent hf'
      rw [h.ancestors_eq hf hparent] at hmem
      rcases List.mem_cons.1 hmem with rfl | hmem
      · obtain rfl := Option.some.inj (hg.symm.trans hf')
        exact ⟨hle, by omega⟩
      · obtain ⟨hle', hlevel'⟩ := ih p hlt hf' hmem
        exact ⟨Nat.le_trans hle hle', by omega⟩

end CallTree

end TxTrace

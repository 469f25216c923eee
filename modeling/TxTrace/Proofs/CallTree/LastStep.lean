import TxTrace.Analysis.Failure
import TxTrace.Proofs.CallTree.Persistence
import TxTrace.Proofs.CallTree.Standing

/-!
The last steps of frames. A frame that is known to have ended did so at its last step: the step is one
of its own, and of the kind that ends a frame so (`CallTree.endsAt_of_stop`). Two things are apart.
Steps that trail lengthen the outermost frame past its end, and where the depth skips a level after a
terminal instruction the caller is taken to have halted at that instruction.
-/

namespace TxTrace

namespace Progress

variable {tx : Transaction} {steps : Array Step} {b b' : Progress}

/-- The step at `j` belongs to the frame at `id` and ends a frame with that status. -/
def EndsAt (steps : Array Step) (b : Progress) (id : Nat) (status : Status) (j : Nat) : Prop :=
  ∃ s, steps[j]? = some s ∧ b.owners[j]? = some id ∧ s.endStatus = status

/-- The step at `j` ended a frame that the one at `id` had called, and the next one runs two levels
    above it. -/
def Skips (steps : Array Step) (b : Progress) (id j : Nat) : Prop :=
  ∃ s t callee f, steps[j]? = some s ∧ steps[j + 1]? = some t ∧ s.IsTerminal ∧
    t.depth + 2 = s.depth ∧ b.owners[j]? = some callee ∧ b.frames[callee]? = some f ∧
    f.parent = some id

/-- Every frame that is known to have ended did so at its last step, or was skipped there. -/
structure Marked (steps : Array Step) (b : Progress) : Prop where
  mark : ∀ {id : Nat} {f : Frame} {j : Nat}, b.frames[id]? = some f → f.stop = some j →
    f.status ≠ .unknown → EndsAt steps b id f.status j ∨ Skips steps b id j

theorem Extends.endsAt (hextends : Extends b b') {id j : Nat} {status : Status}
    (h : EndsAt steps b id status j) : EndsAt steps b' id status j := by
  obtain ⟨s, hs, howner, hstatus⟩ := h
  exact ⟨s, hs, hextends.owners howner, hstatus⟩

theorem Extends.skips (hextends : Extends b b') {id j : Nat} (h : Skips steps b id j) :
    Skips steps b' id j := by
  obtain ⟨s, t, callee, f, hs, ht, hkind, hdepth, howner, hf, hparent⟩ := h
  obtain ⟨f', hf', hsame⟩ := hextends.frames hf
  exact ⟨s, t, callee, f', hs, ht, hkind, hdepth, hextends.owners howner, hf',
    hsame.parent.trans hparent⟩

/-- Frames keep their marks, and those that get a last step get a mark with it. -/
theorem Marked.of_extends (h : Marked steps b) (hextends : Extends b b')
    (hframes : ∀ {id : Nat} {f' : Frame} {j : Nat}, b'.frames[id]? = some f' → f'.stop = some j →
      f'.status ≠ .unknown →
      (∃ f, b.frames[id]? = some f ∧ f'.stop = f.stop ∧ f'.status = f.status) ∨
        EndsAt steps b id f'.status j ∨ Skips steps b id j) : Marked steps b' := by
  constructor
  intro id f' j hf' hstop hstatus
  refine Or.imp hextends.endsAt hextends.skips ?_
  rcases hframes hf' hstop hstatus with ⟨f, hf, hstop', hstatus'⟩ | hmark
  · rw [hstatus']
    exact h.mark hf (hstop'.symm.trans hstop) (hstatus' ▸ hstatus)
  · exact hmark

theorem Marked.congr (h : Marked steps b) (hframes : b'.frames = b.frames)
    (howners : b'.owners = b.owners) : Marked steps b' := by
  constructor
  unfold EndsAt Skips
  rw [hframes, howners]
  exact h.mark

/-- What is changed of a frame is neither its last step nor its status. -/
theorem Marked.modify (h : Marked steps b) (id : Nat) {g : Frame → Frame}
    (hcall : ∀ f : Frame, f.SameCall (g f)) (hstop : ∀ f, (g f).stop = f.stop)
    (hstatus : ∀ f, (g f).status = f.status) : Marked steps (b.modify id g) := by
  refine h.of_extends (extends_modify b id hcall) ?_
  intro i f' j hf' _ _
  exact .inl (exists_of_frames_modify
    (R := fun f f' => f'.stop = f.stop ∧ f'.status = f.status) hf' (fun _ => ⟨rfl, rfl⟩)
    fun f => ⟨hstop f, hstatus f⟩)

theorem Marked.add (h : Marked steps b) (hopened : b.opened ≠ []) {f : Frame} (hnone : f.stop = none) :
    Marked steps (b.add f) := by
  obtain ⟨top, outer, hcons⟩ := List.exists_cons_of_ne_nil hopened
  refine h.of_extends (.of_add hopened rfl (owners_add b f)) ?_
  intro i f' j hf' hstop _
  rw [getElem?_frames_add b f hcons] at hf'
  split at hf'
  · obtain rfl := Option.some.inj hf'
    rw [hnone] at hstop
    cases hstop
  · split at hf'
    · obtain ⟨g, hg, rfl⟩ := Option.map_eq_some_iff.1 hf'
      exact .inl ⟨g, hg, rfl, rfl⟩
    · exact .inl ⟨f', hf', rfl, rfl⟩

theorem Marked.enter (h : Marked steps b) (hopened : b.opened ≠ []) {f : Frame}
    (hnone : f.stop = none) : Marked steps (b.enter f) :=
  (h.add hopened hnone).congr (frames_enter b f) ((owners_enter b f).trans (owners_add b f).symm)

/-- The frame that is closed gets a mark, unless it is not known how it ended. -/
theorem Marked.close (h : Marked steps b) {ending : Ending}
    (hends : ∀ {top : OpenFrame} {outer : List OpenFrame} {j : Nat}, b.opened = top :: outer →
      ending.stop = some j → ending.status ≠ .unknown →
      EndsAt steps b top.id ending.status j ∨ Skips steps b top.id j) :
    Marked steps (b.close steps ending) := by
  cases hopened : b.opened with
  | nil =>
    rw [close_of_nil ending hopened]
    exact h
  | cons top outer =>
    refine h.of_extends (.of_modify (frames_close b hopened) (owners_close b ending)
      fun f => f.sameCall_finish steps ending) ?_
    intro i f' j hf' hstop hstatus
    rw [frames_close b hopened, Array.getElem?_modify] at hf'
    split at hf'
    · next hid =>
      obtain ⟨f, hf, rfl⟩ := Option.map_eq_some_iff.1 hf'
      have hstop' : ending.stop = some j := (Option.filter_eq_some_iff.1 hstop).1
      exact .inr (hid ▸ hends hopened hstop' hstatus)
    · exact .inl ⟨f', hf', rfl, rfl⟩

/-- Closing a frame without knowing how it ended needs no mark. -/
theorem Marked.close_unknown (h : Marked steps b) (stop : Option Nat) :
    Marked steps (b.close steps ⟨stop, .unknown, none, none⟩) :=
  h.close fun _ _ hstatus => absurd rfl hstatus

theorem Marked.closeAbove (h : Marked steps b) (i depth : Nat) :
    Marked steps (b.closeAbove steps i depth) := by
  fun_induction Progress.closeAbove steps i depth b with
  | case1 b top next rest hopened hlt ih => exact ih (h.close_unknown _)
  | case2 => exact h
  | case3 => exact h

theorem Marked.enterUnseen (h : Marked steps b) (hopened : b.opened ≠ []) (i count : Nat) :
    Marked steps (b.enterUnseen i count) := by
  induction count generalizing b with
  | zero => exact h
  | succ count ih => exact ih (h.enter hopened rfl) (enter_ne_nil b _ hopened)

theorem Marked.realign (h : Marked steps b) (hopened : b.opened ≠ []) (i source depth : Nat) :
    Marked steps (b.realign steps i source depth) := by
  have hset {b : Progress} (hb : Marked steps b) : Marked steps (b.setDepth depth) :=
    hb.congr (frames_setDepth b depth) (owners_setDepth b depth)
  unfold Progress.realign
  apply hset
  split
  · exact h.closeAbove i depth
  · exact h.enterUnseen hopened i _

/-- A frame that is taken to have halted when the step `t` begins ended at the step before, or that
    step ended a frame that it had called. -/
theorem Standing.endsAt_or_skips {k : Nat} {s t : Step} (h : Standing steps k s b)
    (hs : steps[k]? = some s) (ht : steps[k + 1]? = some t) {top : OpenFrame}
    {outer : List OpenFrame} (hopened : b.opened = top :: outer) (hdepth : t.depth + 1 = top.depth) :
    EndsAt steps b top.id .invalid k ∨ Skips steps b top.id k := by
  cases h with
  | inside hcons _ howner hkind =>
    obtain ⟨rfl, rfl⟩ := List.cons.inj (hcons.symm.trans hopened)
    exact .inl ⟨s, hs, howner, Step.endStatus_of_not_isTerminal hkind⟩
  | entered hcons htop hnext =>
    obtain ⟨rfl, rfl⟩ := List.cons.inj (hcons.symm.trans hopened)
    have := hnext t ht
    omega
  | left hcons hcaller hkind howner hf hparent _ =>
    obtain ⟨rfl, rfl⟩ := List.cons.inj (hcons.symm.trans hopened)
    exact .inr ⟨s, t, _, _, hs, ht, hkind, by omega, howner, hf, hparent⟩
  | ended hclosed =>
    rw [hclosed] at hopened
    cases hopened

theorem Marked.settle (h : Marked steps b) (s : Step) : Marked steps (b.settle s) := by
  unfold Progress.settle
  split
  · exact h
  · next st _ =>
    exact (h.modify st.id (g := (·.settle s st.needsOutput))
      (fun f => f.sameCall_settle s st.needsOutput) (fun f => rfl) fun f => rfl).congr rfl rfl

theorem Marked.own (h : Marked steps b) : Marked steps b.own :=
  h.of_extends (.of_push rfl rfl) fun hf' _ _ => .inl ⟨_, hf', rfl, rfl⟩

theorem Marked.log (h : Marked steps b) (i : Nat) (s : Step) (topics : Nat) :
    Marked steps (b.log i s topics) := by
  unfold Progress.log
  split
  · exact h.congr rfl rfl
  · exact h.modify _ (fun f => f.sameCall_log _) (fun f => rfl) fun f => rfl

theorem Marked.call (h : Marked steps b) (hopened : b.opened ≠ []) (i : Nat) (s : Step)
    (type : CallType) : Marked steps (b.call steps i s type) := by
  have hchecked : Marked steps (b.checkOperands i s type) :=
    h.congr (frames_checkOperands i s type b) (owners_checkOperands i s type b)
  have hopened' : (b.checkOperands i s type).opened ≠ [] := by
    rw [opened_checkOperands]
    exact hopened
  by_cases hhalts : s.error.isSome ∨ (steps[i + 1]?).any (·.depth < s.depth)
  · rw [call_eq_self hhalts]
    exact h
  · cases hnext : (steps[i + 1]?).filter (·.depth = s.depth) with
    | some next =>
      rw [call_eq_add hhalts hnext]
      exact (hchecked.add hopened' rfl).congr rfl rfl
    | none =>
      rw [call_eq_enter hhalts hnext]
      exact hchecked.enter hopened' rfl

/-- The frame of a terminal instruction ends at it. -/
theorem Arrived.marked {i : Nat} {s : Step} {top : OpenFrame} {outer : List OpenFrame}
    (harrived : Arrived i s top outer b) (hs : steps[i]? = some s) (h : Marked steps b) :
    Marked steps (b.execute steps i s) := by
  unfold Progress.execute
  split
  · exact h.call (harrived.opened ▸ List.cons_ne_nil top outer) i s _
  · next t hkind =>
    refine h.close fun hopened hstop _ => .inl ⟨s, ?_⟩
    obtain ⟨rfl, rfl⟩ := List.cons.inj (harrived.opened.symm.trans hopened)
    obtain rfl := Option.some.inj hstop
    exact ⟨hs, harrived.owner, Step.endStatus_of_kind hkind⟩
  · exact h.log i s _
  · exact h

theorem Marked.align (h : Marked steps b) (hb : Contiguous b) (hopened : b.opened ≠ []) {i depth : Nat}
    (hhalts : ∀ {top : OpenFrame} {outer : List OpenFrame} {j : Nat}, b.opened = top :: outer →
      outer ≠ [] → depth + 1 = top.depth → before i = some j →
      EndsAt steps b top.id .invalid j ∨ Skips steps b top.id j) :
    Marked steps (b.align steps i depth) := by
  have haligned : Aligned steps i depth b (b.align steps i depth) := aligned_align hb hopened i depth
  generalize b.align steps i depth = b' at haligned
  cases haligned with
  | level => exact h
  | halted hcons houter hdepth =>
    refine h.close fun hcons' hstop _ => ?_
    obtain ⟨rfl, rfl⟩ := List.cons.inj (hcons.symm.trans hcons')
    exact hhalts hcons houter hdepth hstop
  | @jumped top outer hcons =>
    have hrecord : Marked steps (b.record (.depthJump i top.depth depth)) := h.congr rfl rfl
    exact hrecord.realign hopened i _ depth

theorem marked_step {trace : Trace} {i : Nat} {t : Step} (ht : trace.steps[i]? = some t)
    (h : Marked trace.steps (reached tx trace.steps i)) :
    Marked trace.steps (reached tx trace.steps (i + 1)) := by
  have hlt : i < trace.steps.size := (Array.getElem?_eq_some_iff.1 ht).1
  have hle := Nat.le_of_lt hlt
  rw [reached_succ ht]
  by_cases hopened : (reached tx trace.steps i).opened = []
  · rw [step_eq_trail hopened]
    exact h.of_extends (.of_push rfl rfl) fun hf' _ _ => .inl ⟨_, hf', rfl, rfl⟩
  · rw [step_eq_execute hopened]
    have hb := contiguous_reached tx hle
    obtain ⟨top, outer, harrived⟩ := arrived_reached ht hb hopened
    refine harrived.marked ht ?_
    refine ((h.align hb hopened ?_).settle t).own
    intro top outer j hcons houter hdepth hbefore
    cases i with
    | zero => cases hbefore
    | succ k =>
      obtain rfl := Option.some.inj hbefore
      have hs : trace.steps[k]? = some trace.steps[k] := Array.getElem?_eq_getElem (by omega)
      have hopened' := reached_ne_nil_of_le (Nat.le_succ k) hle hopened
      exact (standing_reached tx hs hopened').endsAt_or_skips hs ht hcons hdepth

theorem marked_reached (tx : Transaction) {trace : Trace} {n : Nat} (hn : n ≤ trace.steps.size) :
    Marked trace.steps (reached tx trace.steps n) := by
  induction n with
  | zero =>
    constructor
    intro id f j hf hstop _
    obtain ⟨hlt, rfl⟩ := Array.getElem?_eq_some_iff.1 hf
    simp [reached_zero, ofTransaction] at hstop
  | succ n ih => exact marked_step (Array.getElem?_eq_getElem hn) (ih (Nat.le_of_succ_le hn))

/-- An error on the last step ends the frame of that step. -/
theorem Marked.finishError {last : Step} (h : Marked steps b)
    (hlast : steps.back? = some last) (hstanding : Standing steps (steps.size - 1) last b) :
    Marked steps (b.finishError steps) := by
  have hs : steps[steps.size - 1]? = some last := Array.back?_eq_getElem? ▸ hlast
  unfold Progress.finishError
  split
  · next top outer last' hopened hlast' =>
    obtain rfl := Option.some.inj (hlast.symm.trans hlast')
    split
    · next herror =>
      refine h.close fun hopened' hstop _ => .inl ?_
      obtain ⟨rfl, rfl⟩ := List.cons.inj (hopened.symm.trans hopened')
      obtain rfl := Option.some.inj hstop
      have hdepth := herror.2
      cases hstanding with
      | inside hcons _ howner hkind =>
        obtain ⟨rfl, rfl⟩ := List.cons.inj (hcons.symm.trans hopened)
        exact ⟨_, hs, howner, Step.endStatus_of_not_isTerminal hkind⟩
      | entered hcons htop _ =>
        obtain ⟨rfl, rfl⟩ := List.cons.inj (hcons.symm.trans hopened)
        omega
      | left hcons hcaller _ _ _ _ _ =>
        obtain ⟨rfl, rfl⟩ := List.cons.inj (hcons.symm.trans hopened)
        omega
      | ended hclosed =>
        rw [hclosed] at hopened
        cases hopened
    · exact h
  · exact h

theorem Marked.closeAll (h : Marked steps b) : Marked steps (b.closeAll steps) := by
  fun_induction Progress.closeAll steps b with
  | case1 => exact h
  | case2 b top rest hopened ih => exact ih (h.close_unknown _)

theorem marked_closed (tx : Transaction) {trace : Trace} {last : Step}
    (hlast : trace.steps.back? = some last) : Marked trace.steps (closed tx trace) := by
  have hs : trace.steps[trace.steps.size - 1]? = some last := Array.back?_eq_getElem? ▸ hlast
  have hlt := (Array.getElem?_eq_some_iff.1 hs).1
  have hsize : trace.steps.size - 1 + 1 = trace.steps.size := by omega
  have hrun := marked_reached tx (Nat.le_refl trace.steps.size)
  have herror : Marked trace.steps
      ((reached tx trace.steps trace.steps.size).finishError trace.steps) := by
    by_cases hopened : (reached tx trace.steps trace.steps.size).opened = []
    · unfold Progress.finishError
      rw [hopened]
      exact hrun
    · have hbefore := reached_ne_nil_of_le (Nat.le_of_lt hlt) (Nat.le_refl _) hopened
      have hstanding := standing_reached tx hs hbefore
      rw [hsize] at hstanding
      exact hrun.finishError hlast hstanding
  rw [closed_eq_of_back? hlast]
  unfold finishOpen
  split
  · exact herror
  · exact herror.closeAll.congr rfl rfl

/-- Steps after the end of the outermost frame belong to it. -/
theorem owner_of_closed {trace : Trace} {last : Step} {i : Nat} (hlast : trace.steps.back? = some last)
    (hi : i < trace.steps.size) (hclosed : (reached tx trace.steps i).opened = []) :
    (closed tx trace).owners[i]? = some 0 := by
  have hran := size_owners_reached tx (Nat.le_of_lt hi)
  have howners : (reached tx trace.steps (i + 1)).owners =
      (reached tx trace.steps i).owners.push 0 := by
    rw [reached_succ (Array.getElem?_eq_getElem hi), step_eq_trail hclosed]
    rfl
  refine (extends_closed tx hlast hi).owners ?_
  rw [howners, Array.getElem?_push, hran, if_pos rfl]

/-- Where steps trail, the step before them is the last one of the outermost frame and ended it. -/
theorem exists_ended_of_trailing {trace : Trace} {last : Step} {first count : Nat}
    (hlast : trace.steps.back? = some last)
    (htrailing : (closed tx trace).trailing = some (first, count)) :
    ∃ k f, first = k + 1 ∧ first + count = trace.steps.size ∧ (closed tx trace).frames[0]? = some f ∧
      EndsAt trace.steps (closed tx trace) 0 f.status k ∧
      ∀ i, k < i → i < trace.steps.size → (closed tx trace).owners[i]? = some 0 := by
  by_cases hopened : (reached tx trace.steps trace.steps.size).opened = []
  · obtain ⟨k, hk, hbefore, hafter, hreached⟩ := exists_ended (Nat.le_refl _) hopened
    have hs : trace.steps[k]? = some trace.steps[k] := Array.getElem?_eq_getElem hk
    have hsize : first = k + 1 ∧ count = trace.steps.size - (k + 1) := by
      rw [closed_eq_reached hlast hopened, hreached] at htrailing
      split at htrailing
      · cases htrailing
      · obtain ⟨rfl, rfl⟩ := Prod.mk.inj (Option.some.inj htrailing)
        exact ⟨rfl, rfl⟩
    cases standing_reached tx hs hbefore with
    | @ended f _ howner hf hstop hstatus hkind =>
      have hframes := (reached_of_closed hk (Nat.le_refl _) hafter).2.1
      refine ⟨k, f, hsize.1, by omega, ?_, ⟨_, hs, ?_, hstatus.symm⟩, fun i hki hi => ?_⟩
      · rw [closed_eq_reached hlast hopened, hframes]
        exact hf
      · exact (extends_closed tx hlast hk).owners howner
      · exact owner_of_closed hlast hi (reached_of_closed hki (Nat.le_of_lt hi) hafter).1
    | inside hcons => simp [hafter] at hcons
    | entered hcons => simp [hafter] at hcons
    | left hcons => simp [hafter] at hcons
  · rw [trailing_closed_of_opened hlast hopened] at htrailing
    cases htrailing

end Progress

/-- Where a failure is shown that began in a frame with a last step. -/
theorem Analysis.failure?_eq {a : Analysis} {e : Execution} {id j : Nat} {f : Frame}
    (hexecution : a.execution = some e) (hfault : a.fault? = some id)
    (hf : e.tree.frame? id = some f) (hstop : f.stop = some j)
    (howner : e.tree.owner? j = some id) (pad : Nat) :
    a.failure? pad = e.steps[j]?.map fun s => a.registry.placeText f s pad := by
  have hframe : a.faultFrame? = some f := by
    simp [faultFrame?, tree?, hexecution, hfault, hf]
  unfold failure?
  simp only [hexecution, hframe, hstop, Option.some_or, howner, hf, Option.bind_eq_bind,
    Option.bind_some]
  cases e.steps[j]? <;> rfl

namespace CallTree

/-- The step at `j` belongs to the frame at `id` and ends a frame with that status. -/
def EndsAt (tree : CallTree) (steps : Array Step) (id : Nat) (status : Status) (j : Nat) : Prop :=
  ∃ s, steps[j]? = some s ∧ tree.owner? j = some id ∧ s.endStatus = status

/-- The step at `j` ended a frame that the one at `id` had called, and the next one runs two levels
    above it. -/
def Skips (tree : CallTree) (steps : Array Step) (id j : Nat) : Prop :=
  ∃ s t callee f, steps[j]? = some s ∧ steps[j + 1]? = some t ∧ s.IsTerminal ∧
    t.depth + 2 = s.depth ∧ tree.owner? j = some callee ∧ tree.frame? callee = some f ∧
    f.parent = some id

theorem endsAt_named_ofTrace (tx : Transaction) (trace : Trace) (r : Registry) {id j : Nat}
    {status : Status} (h : Progress.EndsAt trace.steps (Progress.closed tx trace) id status j) :
    ((ofTrace tx trace).1.named r).1.EndsAt trace.steps id status j := by
  obtain ⟨s, hs, howner, hstatus⟩ := h
  exact ⟨s, hs, owner?_named_ofTrace tx trace r howner, hstatus⟩

theorem skips_named_ofTrace (tx : Transaction) (trace : Trace) (r : Registry) {id j : Nat}
    (h : Progress.Skips trace.steps (Progress.closed tx trace) id j) :
    ((ofTrace tx trace).1.named r).1.Skips trace.steps id j := by
  obtain ⟨s, t, callee, f, hs, ht, hkind, hdepth, howner, hf, hparent⟩ := h
  refine ⟨s, t, callee, finalFrame tx trace r callee f, hs, ht, hkind, hdepth,
    owner?_named_ofTrace tx trace r howner, ?_, ?_⟩
  · rw [frame?_named_ofTrace, hf, Option.map_some]
  · rw [(sameCall_finalFrame tx trace r callee f).parent, hparent]

/-- A frame that is known to have ended, and is not skipped, ended with a step of its own of the kind
    of its status. That is its last step, or the one before the steps that trail the outermost frame.
    A failure that began in the frame is shown at its last step. -/
theorem endsAt_of_stop (tx : Transaction) (trace : Trace) (r : Registry) {id j : Nat} {f : Frame}
    (hf : ((ofTrace tx trace).1.named r).1.frame? id = some f) (hstop : f.stop = some j)
    (hstatus : f.status ≠ .unknown)
    (hskips : ¬ ((ofTrace tx trace).1.named r).1.Skips trace.steps id j) :
    (∃ e, ((ofTrace tx trace).1.named r).1.EndsAt trace.steps id f.status e ∧
      (e = j ∨ id = 0 ∧ e < j ∧ j + 1 = trace.steps.size ∧
        .trailingSteps (e + 1) (j - e) ∈ anomalies tx trace r)) ∧
      ((ofTrace tx trace).1.named r).1.owner? j = some id ∧
      ∀ (a : Analysis) (pad : Nat),
        a.execution = some ⟨trace.steps, ((ofTrace tx trace).1.named r).1⟩ → a.fault? = some id →
          a.failure? pad = trace.steps[j]?.map fun s => a.registry.placeText f s pad := by
  have hj : j < trace.steps.size := by
    rw [← size_owners_ofTrace tx trace]
    exact ((ranged_named_ofTrace tx trace r).stop_lt (places_eq_some hf) hstop).2
  obtain ⟨last, hlast⟩ := Progress.exists_back?_eq_some hj
  have hframe := hf
  rw [frame?_named_ofTrace] at hframe
  obtain ⟨g, hg, rfl⟩ := Option.map_eq_some_iff.1 hframe
  rw [status_finalFrame] at hstatus
  suffices hends : ((ofTrace tx trace).1.named r).1.owner? j = some id ∧
      ∃ e, ((ofTrace tx trace).1.named r).1.EndsAt trace.steps id g.status e ∧
        (e = j ∨ id = 0 ∧ e < j ∧ j + 1 = trace.steps.size ∧
          .trailingSteps (e + 1) (j - e) ∈ anomalies tx trace r) by
    rw [status_finalFrame]
    exact ⟨hends.2, hends.1, fun a pad hexecution hfault =>
      Analysis.failure?_eq hexecution hfault hf hstop hends.1 pad⟩
  by_cases htrails : id = 0 ∧ (Progress.closed tx trace).trailing.isSome
  · obtain ⟨rfl, hsome⟩ := htrails
    obtain ⟨⟨first, count⟩, htrailing⟩ := Option.isSome_iff_exists.1 hsome
    obtain ⟨k, g', rfl, hsize, hg', hends, howner⟩ :=
      Progress.exists_ended_of_trailing hlast htrailing
    obtain rfl := Option.some.inj (hg.symm.trans hg')
    have hcount : 0 < count := ((Progress.coherent_closed tx trace).ranged.trails htrailing).2.1
    have hstop' : k + count = j := by
      simpa [finalFrame, Progress.finishRoot, htrailing, Nat.add_right_comm] using hstop
    refine ⟨owner?_named_ofTrace tx trace r (howner j (by omega) hj), k,
      endsAt_named_ofTrace tx trace r hends, .inr ⟨rfl, by omega, by omega, ?_⟩⟩
    have hmem : Anomaly.trailingSteps (k + 1) count ∈ (ofTrace tx trace).2 := by
      simp [Progress.anomalies_ofTrace, htrailing]
    rw [← hstop', Nat.add_sub_cancel_left]
    exact List.mem_append_left _ (Array.mem_toList_iff.2 hmem)
  · have hstop' : g.stop = some j := by
      rw [← hstop]
      unfold finalFrame
      split
      · next hid =>
        have hnone : (Progress.closed tx trace).trailing = none := by
          simpa [hid] using htrails
        rw [hnone]
        rfl
      · rfl
    rcases (Progress.marked_closed tx hlast).mark hg hstop' hstatus with ⟨s, hs, howner, hend⟩ | hskip
    · have howner' := owner?_named_ofTrace tx trace r howner
      exact ⟨howner', j, ⟨s, hs, howner', hend⟩, .inl rfl⟩
    · exact absurd (skips_named_ofTrace tx trace r hskip) hskips

/-- A contract calls another one, which halts when it writes to its storage, and reverts. -/
def haltedCall : Trace where
  steps :=
    #[⟨0, "CALL", 1, 100, 10, [50, 0xcc, 0, 0, 0, 0, 0], none, none, none, none⟩,
      ⟨0, "SSTORE", 2, 80, 80, [0, 1], none, none, none, some "out of gas"⟩,
      ⟨1, "REVERT", 1, 50, 0, [0, 0], none, none, none, none⟩]
  dropped := []
  gasUsed := none
  failed := none
  returnValue := none
  depth_le := by simp [maxCallDepth]

/-- A contract reverts, and one more step follows. -/
def trailedRevert : Trace where
  steps :=
    #[⟨0, "REVERT", 1, 100, 0, [0, 0], none, none, none, none⟩,
      ⟨1, "JUMPDEST", 1, 100, 0, [], none, none, none, none⟩]
  dropped := []
  gasUsed := none
  failed := none
  returnValue := none
  depth_le := by simp [maxCallDepth]

/-- The tree of a call of the contract `0xbb` that calls one that halts. -/
def haltedTree : CallTree :=
  ((ofTrace ⟨none, 0xee, some 0xbb, [], 0, 0, 0, none, none⟩ haltedCall).1.named Registry.empty).1

/-- The tree of a call of the contract `0xbb` that is followed by one more step. -/
def trailedTree : CallTree :=
  ((ofTrace ⟨none, 0xee, some 0xbb, [], 0, 0, 0, none, none⟩ trailedRevert).1.named Registry.empty).1

theorem endsAt_of_stop_haltedCall :
    (∃ e, haltedTree.EndsAt haltedCall.steps 0 haltedTree.root.status e ∧
      (e = 2 ∨ 0 = 0 ∧ e < 2 ∧ 2 + 1 = haltedCall.steps.size ∧
        .trailingSteps (e + 1) (2 - e) ∈
          anomalies ⟨none, 0xee, some 0xbb, [], 0, 0, 0, none, none⟩ haltedCall Registry.empty)) ∧
      haltedTree.owner? 2 = some 0 ∧
      ∀ (a : Analysis) (pad : Nat), a.execution = some ⟨haltedCall.steps, haltedTree⟩ →
        a.fault? = some 0 →
          a.failure? pad =
            haltedCall.steps[2]?.map fun s => a.registry.placeText haltedTree.root s pad := by
  have hroot : haltedTree.root.stop = some 2 ∧ haltedTree.root.status ≠ .unknown := by decide +kernel
  refine endsAt_of_stop _ haltedCall Registry.empty (frame?_root haltedTree) hroot.1 hroot.2 ?_
  rintro ⟨_, _, _, _, _, ht, _⟩
  cases ht

/-- The last step of a frame is not always of the kind of its status. -/
theorem not_forall_endsAt_of_stop :
    ¬ ∀ (tx : Transaction) (trace : Trace) (r : Registry) (id j : Nat) (f : Frame),
        ((ofTrace tx trace).1.named r).1.frame? id = some f → f.stop = some j →
        f.status ≠ .unknown → ((ofTrace tx trace).1.named r).1.EndsAt trace.steps id f.status j := by
  intro h
  have hroot : trailedTree.root.stop = some 1 ∧ trailedTree.root.status = .reverted := by decide +kernel
  obtain ⟨s, hs, _, hstatus⟩ :=
    h ⟨none, 0xee, some 0xbb, [], 0, 0, 0, none, none⟩ trailedRevert Registry.empty 0 1 _
      (frame?_root trailedTree) hroot.1 (by simp [hroot.2])
  obtain rfl := Option.some.inj hs
  rw [hroot.2] at hstatus
  cases hstatus

end CallTree

end TxTrace

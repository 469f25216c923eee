import TxTrace.Proofs.CallTree.Emitter
import TxTrace.Proofs.CallTree.Persistence

/-!
The storage on which the code of a frame acts (`CallTree.context_named_ofTrace`). It is that of the
callee, or of the caller where the call borrows it. A contract that the trace creates borrows out what
it does not know yet: what its constructor calls by delegation never learns the context.
-/

namespace TxTrace

/-- What the contexts of frames depend on is the same of both frames. -/
structure Frame.SameContext (f f' : Frame) : Prop where
  callType : f'.callType = f.callType
  parent : f'.parent = f.parent
  callee : f'.callee = f.callee
  context : f'.context = f.context

theorem Frame.SameContext.refl (f : Frame) : f.SameContext f := ⟨rfl, rfl, rfl, rfl⟩

theorem Frame.SameContext.lent_eq {f f' : Frame} (h : f.SameContext f') : f'.lent = f.lent := by
  simp only [lent, isInnerCreation_iff h.callType h.parent, h.context]

theorem CallType.borrowsContext_of_isCreate {type : CallType} (h : type.isCreate) :
    type.borrowsContext = false := by
  cases type with
  | create | create2 => rfl
  | _ => cases h

namespace Progress

variable {steps : Array Step} {b b' : Progress}

/-- Frames act on the storage of their callee, or on what their caller lent them. -/
structure Borrowed (b : Progress) : Prop where
  own : ∀ {id : Nat} {f : Frame}, b.frames[id]? = some f → f.callType.borrowsContext = false →
    f.context = f.callee
  borrowed : ∀ {id p : Nat} {f g : Frame}, b.frames[id]? = some f → f.parent = some p →
    b.frames[p]? = some g → f.callType.borrowsContext → f.context = g.lent

/-- No frame was added, and none got another context. -/
theorem Borrowed.of_sameContext (h : Borrowed b)
    (hframes : ∀ {id : Nat} {f' : Frame}, b'.frames[id]? = some f' →
      ∃ f, b.frames[id]? = some f ∧ f.SameContext f') : Borrowed b' := by
  constructor
  case own =>
    intro id f' hf' htype
    obtain ⟨f, hf, hsame⟩ := hframes hf'
    rw [hsame.context, hsame.callee]
    exact h.own hf (hsame.callType ▸ htype)
  case borrowed =>
    intro id p f' g' hf' hparent hg' htype
    obtain ⟨f, hf, hsame⟩ := hframes hf'
    obtain ⟨g, hg, hsame'⟩ := hframes hg'
    rw [hsame.context, hsame'.lent_eq]
    exact h.borrowed hf (hsame.parent.symm.trans hparent) hg (hsame.callType ▸ htype)

theorem Borrowed.congr (h : Borrowed b) (hframes : b'.frames = b.frames) : Borrowed b' :=
  h.of_sameContext fun hf' => ⟨_, hframes ▸ hf', .refl _⟩

/-- A frame that begins acts on the storage of its callee or of the innermost open frame. -/
theorem Begins.context_eq {f : Frame} (h : Begins steps b f) :
    f.context = if f.callType.borrowsContext then b.context else f.callee := by
  cases h with
  | unseen => rfl
  | called status hs hran hkind => rfl

/-- The innermost open frame lends its context, which is not known of an inner creation. -/
theorem Stamped.lent_top (h : Stamped b) {top : OpenFrame} {outer : List OpenFrame}
    (hopened : b.opened = top :: outer) {g : Frame} (hg : b.frames[top.id]? = some g) :
    b.context = g.lent := by
  have htop : top.id ∈ b.line := line_of_opened hopened ▸ List.mem_cons_self
  have hcontext : b.context = g.context := by
    rw [context, hopened, List.head?_cons, Option.bind_some, hg, Option.bind_some]
  rw [hcontext, Frame.lent]
  split
  · next hcreates => exact h.unnamed hg htop hcreates
  · rfl

theorem Borrowed.add (h : Borrowed b) (hc : Coherent b) (hs : Stamped b) (hopened : b.opened ≠ [])
    {f : Frame} (hbegins : Begins steps b f) : Borrowed (b.add f) := by
  obtain ⟨top, outer, hcons⟩ := List.exists_cons_of_ne_nil hopened
  have hframes {id : Nat} {f' : Frame} (hf' : (b.add f).frames[id]? = some f') :
      (∃ g, b.frames[id]? = some g ∧ g.SameContext f') ∨
        id = b.frames.size ∧ f' = { f with parent := some top.id, level := b.opened.length } :=
    exists_of_frames_add hcons hf' .refl fun _ _ => ⟨rfl, rfl, rfl, rfl⟩
  constructor
  case own =>
    intro id f' hf' htype
    rcases hframes hf' with ⟨g, hg, hsame⟩ | ⟨_, rfl⟩
    · rw [hsame.context, hsame.callee]
      exact h.own hg (hsame.callType ▸ htype)
    · have hcontext := hbegins.context_eq
      rw [if_neg (Bool.eq_false_iff.1 htype)] at hcontext
      exact hcontext
  case borrowed =>
    intro id p f' g' hf' hparent hg' htype
    rcases hframes hf' with ⟨f'', hf'', hsame⟩ | ⟨_, rfl⟩
    · have hparent' := hsame.parent.symm.trans hparent
      rcases hframes hg' with ⟨g, hg, hsame'⟩ | ⟨hsize, _⟩
      · rw [hsame.context, hsame'.lent_eq]
        exact h.borrowed hf'' hparent' hg (hsame.callType ▸ htype)
      · have hlt := hc.arranged.lt_of_calls (calls_places_iff.2 ⟨f'', hf'', hparent'⟩)
        have hlt' := (Array.getElem?_eq_some_iff.1 hf'').1
        omega
    · obtain rfl := Option.some.inj hparent
      rcases hframes hg' with ⟨g, hg, hsame'⟩ | ⟨hsize, _⟩
      · have hcontext := hbegins.context_eq
        rw [if_pos htype, hs.lent_top hcons hg] at hcontext
        rw [hsame'.lent_eq]
        exact hcontext
      · have hlt := hc.lt_size_of_mem_line (line_of_opened hcons ▸ List.mem_cons_self)
        omega

/-- What is told of a frame that has ended changes both the callee and the context of a creation, and
    nothing that a frame was lent. -/
theorem Borrowed.settle (h : Borrowed b) (hc : Coherent b) (hs : Stamped b) (hopened : b.opened ≠ [])
    (s : Step) : Borrowed (b.settle s) := by
  have hframes {id : Nat} {f' : Frame} (hf' : (b.settle s).frames[id]? = some f') :
      ∃ f, b.frames[id]? = some f ∧ f'.callType = f.callType ∧ f'.parent = f.parent ∧
        f'.lent = f.lent ∧ (f.callType.borrowsContext → f'.context = f.context) ∧
        (f.context = f.callee → f'.context = f'.callee) := by
    obtain ⟨f, hf, rfl | ⟨st, hst, rfl, rfl⟩⟩ := exists_of_frames_settle hf'
    · exact ⟨f', hf, rfl, rfl, rfl, fun _ => rfl, fun hcontext => hcontext⟩
    · have hnot := (hs.settled hst).2.resolve_left hopened
      have hne : st.id ≠ 0 := fun hzero => hnot (hzero ▸ hc.zero_mem_line hopened)
      refine ⟨f, hf, rfl, rfl, Frame.lent_settle (hc.isSome_parent hf hne), ?_, ?_⟩
      · intro htype
        have hcreate : ¬ f.callType.isCreate := fun hcreate => by
          rw [CallType.borrowsContext_of_isCreate hcreate] at htype
          cases htype
        simp only [Frame.settle, if_neg hcreate, Option.none_or]
      · intro hcontext
        simp only [Frame.settle, hcontext]
  constructor
  case own =>
    intro id f' hf' htype
    obtain ⟨f, hf, hcall, _, _, _, hcontext⟩ := hframes hf'
    exact hcontext (h.own hf (hcall ▸ htype))
  case borrowed =>
    intro id p f' g' hf' hparent hg' htype
    obtain ⟨f, hf, hcall, hparent', _, hcontext, _⟩ := hframes hf'
    obtain ⟨g, hg, _, _, hlent, _, _⟩ := hframes hg'
    rw [hcall] at htype
    rw [hcontext htype, hlent]
    exact h.borrowed hf (hparent'.symm.trans hparent) hg htype

theorem Move.borrowed (hmove : Move steps b b') (hc : Coherent b) (hs : Stamped b) (h : Borrowed b) :
    Borrowed b' := by
  cases hmove with
  | record a => exact h.congr rfl
  | @close ending hends =>
    cases hopened : b.opened with
    | nil =>
      rw [close_of_nil ending hopened]
      exact h
    | cons top outer =>
      refine h.of_sameContext fun hf' => ?_
      rw [frames_close b hopened] at hf'
      exact exists_of_frames_modify hf' .refl fun f => ⟨rfl, rfl, rfl, rfl⟩
  | enter hopened hbegins => exact (h.add hc hs hopened hbegins).congr (frames_enter b _)
  | codeless hopened hbegins => exact (h.add hc hs hopened hbegins).congr rfl
  | setDepth depth => exact h.congr (frames_setDepth b depth)
  | settle hopened _ => exact h.settle hc hs hopened _
  | own hopened => exact h.congr rfl
  | log hopened _ hran hkind =>
    unfold Progress.log
    split
    · exact h.congr rfl
    · refine h.of_sameContext fun hf' => ?_
      exact exists_of_frames_modify hf' .refl fun f => ⟨rfl, rfl, rfl, rfl⟩
  | trail hclosed => exact h.congr rfl
  | finishEmpty failed hnone =>
    refine h.of_sameContext fun hf' => ?_
    exact exists_of_frames_modify hf' .refl fun f => ⟨rfl, rfl, rfl, rfl⟩

theorem borrowed_ofTransaction (tx : Transaction) (steps : Array Step) :
    Borrowed (ofTransaction tx steps) where
  own := by
    intro id f hf _
    obtain ⟨_, rfl⟩ := Array.getElem?_eq_some_iff.1 hf
    simp [ofTransaction]
  borrowed := by
    intro id p f g hf hparent _ _
    obtain ⟨_, rfl⟩ := Array.getElem?_eq_some_iff.1 hf
    simp [ofTransaction] at hparent

theorem borrowed_closed (tx : Transaction) (trace : Trace) : Borrowed (closed tx trace) := by
  have h := (moves_closed tx trace).preserves
    (P := fun b => Coherent b ∧ Stamped b ∧ Borrowed b)
    (fun hmove hb => ⟨hmove.coherent hb.1, hmove.stamped hb.1 hb.2.1,
      hmove.borrowed hb.1 hb.2.1 hb.2.2⟩)
    ⟨coherent_ofTransaction tx trace.steps, stamped_ofTransaction tx trace.steps,
      borrowed_ofTransaction tx trace.steps⟩
  exact h.2.2

end Progress

namespace CallTree

theorem sameContext_finalFrame (tx : Transaction) (trace : Trace) (r : Registry) (id : Nat)
    (f : Frame) : f.SameContext (finalFrame tx trace r id f) := by
  unfold finalFrame
  split
  · exact ⟨rfl, rfl, rfl, rfl⟩
  · exact ⟨rfl, rfl, rfl, rfl⟩

/-- A frame that was called acts on the storage of its callee, or, if the call borrows it, on that of
    its caller. Only if the caller is a contract that another one creates, and whose address is learned
    later, does it act on none that is known. -/
theorem context_named_ofTrace (tx : Transaction) (trace : Trace) (r : Registry) {id : Nat} {f : Frame}
    (hf : ((ofTrace tx trace).1.named r).1.frame? id = some f) (hid : 0 < id) :
    ∃ p g, f.parent = some p ∧ ((ofTrace tx trace).1.named r).1.frame? p = some g ∧
      (f.callType.borrowsContext = false → f.context = f.callee) ∧
      (f.callType.borrowsContext →
        (f.context = g.context ↔ ¬ g.IsInnerCreation ∨ g.callee = none) ∧
          (g.IsInnerCreation → f.context = none)) := by
  have hwellFormed : ((ofTrace tx trace).1.named r).1.WellFormed
      ((ofTrace tx trace).1.named r).1.owners.size :=
    .of_places (arranged_named_ofTrace tx trace r) (ranged_named_ofTrace tx trace r)
  have hclosed := Progress.borrowed_closed tx trace
  have hframe {id : Nat} {f : Frame} (hf : ((ofTrace tx trace).1.named r).1.frame? id = some f) :
      ∃ f', (Progress.closed tx trace).frames[id]? = some f' ∧ f'.SameContext f := by
    rw [frame?_named_ofTrace] at hf
    obtain ⟨f', hf', rfl⟩ := Option.map_eq_some_iff.1 hf
    exact ⟨f', hf', sameContext_finalFrame tx trace r id f'⟩
  obtain ⟨p, g, hparent, _, hg, _⟩ := hwellFormed.caller hf hid
  obtain ⟨f', hf', hsame⟩ := hframe hf
  obtain ⟨g', hg', hsame'⟩ := hframe hg
  refine ⟨p, g, hparent, hg, fun htype => ?_, fun htype => ?_⟩
  · rw [hsame.context, hsame.callee]
    exact hclosed.own hf' (hsame.callType ▸ htype)
  · have hlent : f.context = g.lent := by
      rw [hsame.context, hsame'.lent_eq]
      exact hclosed.borrowed hf' (hsame.parent.symm.trans hparent) hg' (hsame.callType ▸ htype)
    by_cases hcreates : g.IsInnerCreation
    · have hcontext : g.context = g.callee := by
        have htype' := CallType.borrowsContext_of_isCreate hcreates.1
        rw [hsame'.context, hsame'.callee]
        exact hclosed.own hg' (hsame'.callType ▸ htype')
      have hnone : f.context = none := by rw [hlent, Frame.lent, if_pos hcreates]
      refine ⟨?_, fun _ => hnone⟩
      rw [hnone, hcontext]
      constructor
      · intro hcallee
        exact .inr hcallee.symm
      · rintro (hnot | hcallee)
        · exact absurd hcreates hnot
        · exact hcallee.symm
    · rw [Frame.lent, if_neg hcreates] at hlent
      exact ⟨⟨fun _ => .inl hcreates, fun _ => hlent⟩, fun h => absurd h hcreates⟩

/-- A contract creates another one, whose constructor calls a third one by delegation. -/
def creationWithDelegation : Trace where
  steps :=
    #[⟨0, "CREATE", 1, 100, 10, [0, 0, 0], none, none, none, none⟩,
      ⟨0, "DELEGATECALL", 2, 80, 10, [30, 0xcc, 0, 0, 0, 0], none, none, none, none⟩,
      ⟨0, "STOP", 3, 60, 0, [], none, none, none, none⟩,
      ⟨1, "STOP", 2, 50, 0, [1], none, none, none, none⟩,
      ⟨1, "STOP", 1, 40, 0, [0xaa], none, none, none, none⟩]
  dropped := []
  gasUsed := none
  failed := none
  returnValue := none
  depth_le := by simp [maxCallDepth]

/-- The tree of a call of the contract `0xbb` that creates the contract `0xaa`, which delegates to the
    contract `0xcc`. -/
def delegatingTree : CallTree :=
  ((ofTrace callOfContract creationWithDelegation).1.named Registry.empty).1

/-- The frames of the contracts `0xaa` and `0xcc`. -/
def delegatingFrame : Frame := (delegatingTree.frame? 1).get (by decide +kernel)

def delegatedFrame : Frame := (delegatingTree.frame? 2).get (by decide +kernel)

theorem delegatingTree_delegatingFrame : delegatingTree.frame? 1 = some delegatingFrame :=
  (Option.some_get _).symm

theorem delegatingTree_delegatedFrame : delegatingTree.frame? 2 = some delegatedFrame :=
  (Option.some_get _).symm

theorem delegatedFrame_spec : delegatedFrame.callType.borrowsContext ∧
    delegatedFrame.parent = some 1 ∧ delegatedFrame.context = none ∧
    delegatingFrame.context = some 0xaa := by
  decide +kernel

theorem context_named_ofTrace_delegatedFrame :
    ∃ p g, delegatedFrame.parent = some p ∧ delegatingTree.frame? p = some g ∧
      (delegatedFrame.context = g.context ↔ ¬ g.IsInnerCreation ∨ g.callee = none) := by
  obtain ⟨p, g, hparent, hg, _, hborrowed⟩ := context_named_ofTrace callOfContract
    creationWithDelegation Registry.empty delegatingTree_delegatedFrame (by decide)
  exact ⟨p, g, hparent, hg, (hborrowed delegatedFrame_spec.1).1⟩

/-- Frames that borrow the storage of their caller do not always have its context. -/
theorem not_forall_context_named_ofTrace :
    ¬ ∀ (tx : Transaction) (trace : Trace) (r : Registry) (id p : Nat) (f g : Frame),
        ((ofTrace tx trace).1.named r).1.frame? id = some f → f.parent = some p →
        ((ofTrace tx trace).1.named r).1.frame? p = some g →
        f.context = if f.callType.borrowsContext then g.context else f.callee := by
  intro h
  obtain ⟨hborrows, hparent, hnone, hsome⟩ := delegatedFrame_spec
  have hcontext := h callOfContract creationWithDelegation Registry.empty 2 1 delegatedFrame
    delegatingFrame delegatingTree_delegatedFrame hparent delegatingTree_delegatingFrame
  rw [if_pos hborrows, hnone, hsome] at hcontext
  cases hcontext

end CallTree

end TxTrace

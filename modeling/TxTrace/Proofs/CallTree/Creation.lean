import TxTrace.Proofs.CallTree.CallSite
import TxTrace.Proofs.CallTree.Context

/-!
Where the addresses of created contracts come from (`CallTree.created_named_ofTrace`). A creation that
has ended learns its address from the stack of the very next step, whichever frame that step belongs to.
It belongs to the caller unless the depth jumps down between the two steps.
-/

namespace TxTrace

/-- What of a frame tells where it learned the address of its code is the same of both frames. -/
structure Frame.SameEnd (f f' : Frame) : Prop where
  callType : f'.callType = f.callType
  parent : f'.parent = f.parent
  callStep : f'.callStep = f.callStep
  start : f'.start = f.start
  stop : f'.stop = f.stop
  callee : f'.callee = f.callee

theorem Frame.SameEnd.refl (f : Frame) : f.SameEnd f := ⟨rfl, rfl, rfl, rfl, rfl, rfl⟩

theorem Frame.SameEnd.trans {f g h : Frame} (hfg : f.SameEnd g) (hgh : g.SameEnd h) : f.SameEnd h where
  callType := hgh.callType.trans hfg.callType
  parent := hgh.parent.trans hfg.parent
  callStep := hgh.callStep.trans hfg.callStep
  start := hgh.start.trans hfg.start
  stop := hgh.stop.trans hfg.stop
  callee := hgh.callee.trans hfg.callee

theorem Frame.SameEnd.isInnerCreation_iff {f f' : Frame} (h : f.SameEnd f') :
    f'.IsInnerCreation ↔ f.IsInnerCreation :=
  Frame.isInnerCreation_iff h.callType h.parent

theorem Word.toAddress?_eq_some_iff {w : Word} {a : Address} :
    w.toAddress? = some a ↔ w ≠ 0 ∧ w.toAddress = a := by
  unfold Word.toAddress?
  split
  · next hzero => simp [hzero]
  · next hne =>
    rw [Option.some.injEq]
    exact ⟨fun ha => ⟨hne, ha⟩, And.right⟩

/-- A creation whose address is known when a step has settled it knew it before, or has it from the
    stack of the step. -/
theorem Frame.callee_settle {f : Frame} (hcreate : f.callType.isCreate) {t : Step} {needsOutput : Bool}
    {a : Address} (h : (f.settle t needsOutput).callee = some a) :
    f.callee = some a ∨ ∃ w, t.stackTop 0 = some w ∧ w ≠ 0 ∧ w.toAddress = a := by
  simp only [Frame.settle, if_pos hcreate] at h
  cases hcreated : t.stackTop 0 >>= Word.toAddress? with
  | none =>
    rw [hcreated, Option.none_or] at h
    exact .inl h
  | some a' =>
    rw [hcreated, Option.some_or, Option.some.injEq] at h
    obtain ⟨w, hw, haddress⟩ := Option.bind_eq_some_iff.1 hcreated
    exact .inr ⟨w, hw, Word.toAddress?_eq_some_iff.1 (h ▸ haddress)⟩

namespace Progress

variable {tx : Transaction} {steps : Array Step} {b b' : Progress}

/-- The step after the last one of a frame has the address on top of its stack. It is a step of the
    caller exactly if the frame ran no step, or the last one runs deeper. -/
def Learns (steps : Array Step) (owners : Array Nat) (f : Frame) (a : Address) : Prop :=
  ∃ k s t w o, f.stop.or f.callStep = some k ∧ steps[k]? = some s ∧ steps[k + 1]? = some t ∧
    t.stackTop 0 = some w ∧ w ≠ 0 ∧ w.toAddress = a ∧ owners[k + 1]? = some o ∧
    (f.parent = some o ↔ f.stop = none ∨ t.depth < s.depth)

/-- The contracts that others create in a tree under construction. -/
structure Creations (steps : Array Step) (b : Progress) : Prop where
  called : ∀ {id : Nat} {f : Frame}, b.frames[id]? = some f → f.IsInnerCreation →
    ∃ j, f.callStep = some j ∧ f.start = j + 1
  /-- While a creation runs the address is not known. -/
  unnamed : ∀ {id : Nat} {f : Frame},
    b.frames[id]? = some f → id ∈ b.line → f.IsInnerCreation → f.callee = none
  learned : ∀ {id : Nat} {f : Frame} {a : Address}, b.frames[id]? = some f → f.IsInnerCreation →
    f.callee = some a → Learns steps b.owners f a

/-- A creation that was seen, and the address of which is not known. -/
def Unnamed (f : Frame) : Prop :=
  f.IsInnerCreation → f.callee = none ∧ ∃ j, f.callStep = some j ∧ f.start = j + 1

/-- Frames end as they did, and others know no address. -/
theorem Creations.of_frames (h : Creations steps b)
    (howners : ∀ {j o : Nat}, b.owners[j]? = some o → b'.owners[j]? = some o)
    (hline : ∀ {id : Nat}, id ∈ b'.line → id < b.frames.size → id ∈ b.line)
    (hframes : ∀ {id : Nat} {f' : Frame}, b'.frames[id]? = some f' →
      (∃ f, b.frames[id]? = some f ∧ f.SameEnd f') ∨ Unnamed f') : Creations steps b' := by
  constructor
  case called =>
    intro id f' hf' hinner
    rcases hframes hf' with ⟨f, hf, hsame⟩ | hunnamed
    · obtain ⟨j, hj, hstart⟩ := h.called hf (hsame.isInnerCreation_iff.1 hinner)
      exact ⟨j, hsame.callStep.trans hj, hsame.start.trans hstart⟩
    · exact (hunnamed hinner).2
  case unnamed =>
    intro id f' hf' hid hinner
    rcases hframes hf' with ⟨f, hf, hsame⟩ | hunnamed
    · have hlt := (Array.getElem?_eq_some_iff.1 hf).1
      rw [hsame.callee]
      exact h.unnamed hf (hline hid hlt) (hsame.isInnerCreation_iff.1 hinner)
    · exact (hunnamed hinner).1
  case learned =>
    intro id f' a hf' hinner hcallee
    rcases hframes hf' with ⟨f, hf, hsame⟩ | hunnamed
    · obtain ⟨k, s, t, w, o, hk, hs, ht, hw, hne, ha, ho, hiff⟩ :=
        h.learned hf (hsame.isInnerCreation_iff.1 hinner) (hsame.callee.symm.trans hcallee)
      refine ⟨k, s, t, w, o, ?_, hs, ht, hw, hne, ha, howners ho, ?_⟩
      · rw [hsame.stop, hsame.callStep]
        exact hk
      · rw [hsame.parent, hsame.stop]
        exact hiff
    · rw [(hunnamed hinner).1] at hcallee
      cases hcallee

theorem Creations.congr (h : Creations steps b) (hframes : b'.frames = b.frames)
    (howners : b'.owners = b.owners) (hline : b'.line = b.line) : Creations steps b' := by
  apply h.of_frames
  · rw [howners]
    exact fun ho => ho
  · rw [hline]
    exact fun hid _ => hid
  · rw [hframes]
    exact fun hf => .inl ⟨_, hf, .refl _⟩

/-- A frame that is closed was open, so the address of what it creates is not known. -/
theorem Creations.close (h : Creations steps b) (ending : Ending) :
    Creations steps (b.close steps ending) := by
  cases hopened : b.opened with
  | nil =>
    rw [close_of_nil ending hopened]
    exact h
  | cons top outer =>
    have hline := line_of_opened hopened
    apply h.of_frames
    · rw [owners_close]
      exact fun ho => ho
    · intro id hid _
      rw [line_close hopened] at hid
      exact hline ▸ List.mem_cons_of_mem _ hid
    · intro id f' hf'
      rw [frames_close b hopened, Array.getElem?_modify] at hf'
      split at hf'
      · next hid =>
        obtain ⟨f, hf, rfl⟩ := Option.map_eq_some_iff.1 hf'
        have htop : id ∈ b.line := by simp [hline, hid]
        refine .inr fun hinner => ?_
        have hinner' : f.IsInnerCreation := hinner
        have hcalled := h.called hf hinner'
        have hnone := h.unnamed hf htop hinner'
        exact ⟨hnone, hcalled⟩
      · exact .inl ⟨f', hf', .refl f'⟩

theorem Begins.unnamed {f : Frame} (h : Begins steps b f) (parent : Option Nat) (level : Nat) :
    Unnamed { f with parent, level } := by
  intro hinner
  have hcreate : f.callType.isCreate := hinner.1
  have hcontext := h.context_eq
  rw [CallType.borrowsContext_of_isCreate hcreate, if_neg Bool.false_ne_true] at hcontext
  refine ⟨hcontext.symm.trans (h.emitter.2 hcreate), ?_⟩
  cases h with
  | unseen => cases hcreate
  | called status hs hran hkind => exact ⟨_, rfl, rfl⟩

theorem Creations.add (h : Creations steps b) (hopened : b.opened ≠ []) {f : Frame}
    (hbegins : Begins steps b f) : Creations steps (b.add f) := by
  obtain ⟨top, outer, hcons⟩ := List.exists_cons_of_ne_nil hopened
  apply h.of_frames
  · rw [owners_add]
    exact fun ho => ho
  · rw [line_add]
    exact fun hid _ => hid
  · intro id f' hf'
    rcases exists_of_frames_add hcons hf' Frame.SameEnd.refl
      (fun _ _ => ⟨rfl, rfl, rfl, rfl, rfl, rfl⟩) with hold | ⟨_, rfl⟩
    · exact .inl hold
    · exact .inr (hbegins.unnamed _ _)

theorem Creations.enter (h : Creations steps b) (hopened : b.opened ≠ []) {f : Frame}
    (hbegins : Begins steps b f) : Creations steps (b.enter f) := by
  obtain ⟨top, outer, hcons⟩ := List.exists_cons_of_ne_nil hopened
  apply h.of_frames
  · rw [owners_enter]
    exact fun ho => ho
  · intro id hid hlt
    rw [line_enter hcons] at hid
    exact (List.mem_cons.1 hid).resolve_left (Nat.ne_of_lt hlt)
  · intro id f' hf'
    rw [frames_enter] at hf'
    rcases exists_of_frames_add hcons hf' Frame.SameEnd.refl
      (fun _ _ => ⟨rfl, rfl, rfl, rfl, rfl, rfl⟩) with hold | ⟨_, rfl⟩
    · exact .inl hold
    · exact .inr (hbegins.unnamed _ _)

theorem Creations.log (h : Creations steps b) (i : Nat) (s : Step) (topics : Nat) :
    Creations steps (b.log i s topics) := by
  unfold Progress.log
  split
  · exact h.congr rfl rfl rfl
  · refine h.of_frames (fun ho => ho) (fun hid _ => hid) fun hf' => .inl ?_
    exact exists_of_frames_modify hf' .refl fun f => ⟨rfl, rfl, rfl, rfl, rfl, rfl⟩

theorem Creations.align (h : Creations steps b) {t : Step} (ht : steps[b.owners.size]? = some t) :
    Creations steps (b.align steps b.owners.size t.depth) := by
  apply align_preserves (P := Creations steps) ht
  · intro b ending _ h
    exact h.close ending
  · intro b f hopened hbegins h
    exact h.enter hopened hbegins
  · intro b h
    exact h.congr (frames_setDepth b _) (owners_setDepth b _) (line_setDepth b _)
  · intro b a h
    exact h.congr rfl rfl rfl
  · exact h

/-- What the next step `t` tells of the frame that has just ended is known to come right after it, and
    from its caller unless the depth jumps down. -/
def Told (steps : Array Step) (t : Step) (b : Progress) : Prop :=
  ∀ (st : Settlement) (f : Frame) (p : Nat) (rest : List Nat), b.settlement = some st →
    b.frames[st.id]? = some f → f.IsInnerCreation → b.line = p :: rest →
    ∃ k s, b.owners.size = k + 1 ∧ f.stop.or f.callStep = some k ∧ steps[k]? = some s ∧
      (f.parent = some p ↔ f.stop = none ∨ t.depth < s.depth)

/-- A creation that has ended learns its address. -/
theorem Creations.settle_own (h : Creations steps b) (hs : Stamped b) {top : OpenFrame}
    {outer : List OpenFrame} (hopened : b.opened = top :: outer) {t : Step}
    (ht : steps[b.owners.size]? = some t) (htold : Told steps t b) :
    Creations steps (b.settle t).own := by
  have howners : (b.settle t).own.owners = b.owners.push top.id := by simp [own, hopened]
  have hextends : Extends b (b.settle t).own := by
    have hsettle := (Move.settle b (by simp [hopened]) ht).extends
    have hown : Move steps (b.settle t) (b.settle t).own := .own _ (by simp [hopened])
    exact hsettle.trans hown.extends
  have hline : (b.settle t).own.line = b.line := line_settle b t
  have hframes {id : Nat} {f' : Frame} (hf' : (b.settle t).own.frames[id]? = some f') :
      ∃ f, b.frames[id]? = some f ∧
        (f' = f ∨ ∃ st, b.settlement = some st ∧ st.id = id ∧ f' = f.settle t st.needsOutput) :=
    exists_of_frames_settle hf'
  constructor
  case called =>
    intro id f' hf' hinner
    obtain ⟨f, hf, rfl | ⟨st, _, _, rfl⟩⟩ := hframes hf'
    · exact h.called hf hinner
    · have hinner' : f.IsInnerCreation := hinner
      have hcalled := h.called hf hinner'
      exact hcalled
  case unnamed =>
    intro id f' hf' hid hinner
    rw [hline] at hid
    obtain ⟨f, hf, rfl | ⟨st, hst, rfl, rfl⟩⟩ := hframes hf'
    · exact h.unnamed hf hid hinner
    · exact absurd hid ((hs.settled hst).2.resolve_left (by simp [hopened]))
  case learned =>
    intro id f' a hf' hinner hcallee
    have hold {f : Frame} (hf : b.frames[id]? = some f) (hinner : f.IsInnerCreation)
        (hcallee : f.callee = some a) : Learns steps (b.settle t).own.owners f a := by
      obtain ⟨k, s, t', w, o, hk, hs, ht', hw, hne, ha, ho, hiff⟩ := h.learned hf hinner hcallee
      exact ⟨k, s, t', w, o, hk, hs, ht', hw, hne, ha, hextends.owners ho, hiff⟩
    obtain ⟨f, hf, rfl | ⟨st, hst, rfl, rfl⟩⟩ := hframes hf'
    · exact hold hf hinner hcallee
    · have hinner' : f.IsInnerCreation := hinner
      rcases Frame.callee_settle hinner'.1 hcallee with hcallee' | ⟨w, hw, hne, ha⟩
      · have hlearns := hold hf hinner' hcallee'
        exact hlearns
      · obtain ⟨k, s, hran, hk, hs, hiff⟩ := htold st f _ _ hst hf hinner' (line_of_opened hopened)
        rw [hran] at ht
        refine ⟨k, s, t, w, top.id, hk, hs, ht, hw, hne, ha, ?_, hiff⟩
        rw [howners, ← hran, Array.getElem?_push_size]

theorem Creations.execute (h : Creations steps b) (hopened : b.opened ≠ []) {i : Nat} {s : Step}
    (hs : steps[i]? = some s) (hran : b.owners.size = i + 1) :
    Creations steps (b.execute steps i s) := by
  unfold Progress.execute
  split
  · next type hkind =>
    apply call_preserves (P := Creations steps) hopened hs hran hkind
    · intro _ _ h
      exact h.congr rfl rfl rfl
    · intro _ _ hopened hbegins h
      exact h.enter hopened hbegins
    · intro _ _ hopened hbegins h
      exact (h.add hopened hbegins).congr rfl rfl rfl
    · exact h
  · exact h.close _
  · exact h.log i s _
  · exact h

/-! ### What the next step tells -/

/-- The creation that has just ended stopped with the step at `k`, and the innermost open frame called
    it. -/
def Returned (k : Nat) (b : Progress) : Prop :=
  ∀ (st : Settlement) (f : Frame) (p : Nat) (rest : List Nat), b.settlement = some st →
    b.frames[st.id]? = some f → f.IsInnerCreation → b.line = p :: rest →
    f.stop.or f.callStep = some k ∧ f.parent = some p

theorem returned_close (h : Creations steps b) (hc : Coherent b) {k : Nat}
    (hran : b.owners.size = k + 1) {ending : Ending} (hends : Ends steps b ending) :
    Returned k (b.close steps ending) := by
  intro st f p rest hst hf hinner hline
  cases hopened : b.opened with
  | nil =>
    rw [close_of_nil ending hopened, line, hopened] at hline
    cases hline
  | cons top outer =>
    rw [line_close hopened] at hline
    have houter : outer.isEmpty = false := by
      cases outer with
      | nil => cases hline
      | cons _ _ => rfl
    rw [settlement_close b hopened, houter, if_neg Bool.false_ne_true] at hst
    obtain rfl := Option.some.inj hst
    rw [frames_close b hopened, Array.getElem?_modify, if_pos rfl] at hf
    obtain ⟨g, hg, rfl⟩ := Option.map_eq_some_iff.1 hf
    have hinner' : g.IsInnerCreation := hinner
    obtain ⟨j, hj, hstart⟩ := h.called hg hinner'
    have hle : g.start ≤ k + 1 := hran ▸ hc.start_le hg
    constructor
    · show (ending.stop.filter (g.start ≤ ·)).or g.callStep = some k
      rw [hends.stop_eq, before, hran, if_neg (Nat.succ_ne_zero k), Nat.add_sub_cancel,
        Option.filter_some]
      by_cases hran' : g.start ≤ k
      · rw [if_pos (decide_eq_true hran')]
        rfl
      · rw [if_neg (by simpa using hran'), Option.none_or, hj]
        congr 1
        omega
    · show g.parent = some p
      have hopen := line_of_opened hopened
      rw [hline] at hopen
      exact hc.parent_eq_some hopen hg

/-- The frames above a depth were called from one another. -/
theorem Returned.closeAbove {k : Nat} (hreturned : Returned k b) (h : Creations steps b)
    (hc : Coherent b) (hran : b.owners.size = k + 1) (depth : Nat) :
    Returned k (b.closeAbove steps b.owners.size depth) := by
  suffices hall : (b.closeAbove steps b.owners.size depth).owners.size = k + 1 ∧
      Coherent (b.closeAbove steps b.owners.size depth) ∧
      Creations steps (b.closeAbove steps b.owners.size depth) ∧
      Returned k (b.closeAbove steps b.owners.size depth) from hall.2.2.2
  apply closeAbove_preserves
    (P := fun b => b.owners.size = k + 1 ∧ Coherent b ∧ Creations steps b ∧ Returned k b)
  · rintro b ending hends ⟨hran, hc, h, _⟩
    exact ⟨(by rw [owners_close, hran]), hc.close hends.stop_eq, h.close ending,
      returned_close h hc hran hends⟩
  · exact ⟨hran, hc, h, hreturned⟩

/-- What is awaited after the step `s` at `i`. The frame that has just ended was called from the
    innermost open one. It ended with the step, or ran no code, and then the next step runs at the
    depth of the call. -/
def Awaited (steps : Array Step) (i : Nat) (s : Step) (b : Progress) : Prop :=
  ∀ (st : Settlement) (f : Frame) (top : OpenFrame) (outer : List OpenFrame),
    b.settlement = some st → b.frames[st.id]? = some f → b.opened = top :: outer →
    f.parent = some top.id ∧
      (f.stop = some i ∧ top.depth + 1 = s.depth ∨
        f.stop = none ∧ f.callStep = some i ∧ ∀ t, steps[i + 1]? = some t → t.depth = top.depth)

theorem awaited_of_none {i : Nat} {s : Step} (hnone : b.settlement = none) : Awaited steps i s b := by
  intro st f top outer hst
  rw [hnone] at hst
  cases hst

theorem Awaited.returned {k : Nat} {s : Step} (h : Awaited steps k s b) : Returned k b := by
  intro st f p rest hst hf _ hline
  cases hopened : b.opened with
  | nil => simp [line, hopened] at hline
  | cons top outer =>
    rw [line_of_opened hopened] at hline
    obtain ⟨rfl, _⟩ := List.cons.inj hline
    obtain ⟨hparent, ⟨hstop, _⟩ | ⟨hstop, hcall, _⟩⟩ := h st f top outer hst hf hopened
    · exact ⟨by rw [hstop, Option.some_or], hparent⟩
    · exact ⟨by rw [hstop, hcall, Option.none_or], hparent⟩

/-- A frame that a step inside the trace leaves ended with it. -/
theorem Arrived.awaited_terminate {i : Nat} {s : Step} {top : OpenFrame} {outer : List OpenFrame}
    (harrived : Arrived i s top outer b)
    (hstart : ∀ {id : Nat} {f : Frame}, b.frames[id]? = some f → f.start ≤ i) (t : Terminal) :
    Awaited steps i s (b.terminate steps i s t) := by
  intro st f caller rest hst hf hopened
  rw [Progress.terminate, opened_close, harrived.opened, List.tail_cons] at hopened
  subst hopened
  rw [Progress.terminate, settlement_close b harrived.opened] at hst
  obtain rfl := Option.some.inj hst
  rw [Progress.terminate, frames_close b harrived.opened, Array.getElem?_modify, if_pos rfl] at hf
  obtain ⟨g, hg, rfl⟩ := Option.map_eq_some_iff.1 hf
  have hparent : g.parent = some caller.id :=
    harrived.coherent.parent_eq_some (line_of_opened harrived.opened) hg
  have hdepth := harrived.contiguous.depth_eq harrived.opened
  refine ⟨hparent, .inl ⟨?_, hdepth.symm.trans harrived.depth⟩⟩
  show (some i).filter (g.start ≤ ·) = some i
  simp [hstart hg]

theorem Arrived.awaited_call {i : Nat} {s : Step} {top : OpenFrame} {outer : List OpenFrame}
    (harrived : Arrived i s top outer b) (hnone : b.settlement = none) (type : CallType) :
    Awaited steps i s (b.call steps i s type) := by
  have hchecked : (b.checkOperands i s type).settlement = none := by
    unfold checkOperands
    split
    · exact hnone
    · exact hnone
  by_cases hhalts : s.error.isSome ∨ (steps[i + 1]?).any (·.depth < s.depth)
  · rw [call_eq_self hhalts]
    exact awaited_of_none hnone
  · cases hnext : (steps[i + 1]?).filter (·.depth = s.depth) with
    | some next =>
      rw [call_eq_add hhalts hnext]
      intro st f top' outer' hst hf hopened
      obtain rfl := Option.some.inj hst
      have hcons := (opened_checkOperands i s type b).trans harrived.opened
      have hopened' : b.opened = top' :: outer' := by simpa using hopened
      obtain ⟨rfl, rfl⟩ := List.cons.inj (harrived.opened.symm.trans hopened')
      have hadd := getElem?_frames_add _ { b.calledFrame i s type with status := codelessStatus next }
        hcons b.frames.size
      rw [frames_checkOperands, if_pos rfl] at hadd
      obtain rfl := Option.some.inj (hadd.symm.trans hf)
      refine ⟨rfl, .inr ⟨rfl, rfl, fun t ht => ?_⟩⟩
      obtain ⟨hnext', hdepth⟩ := Option.filter_eq_some_iff.1 hnext
      obtain rfl := Option.some.inj (hnext'.symm.trans ht)
      exact (of_decide_eq_true hdepth).trans harrived.depth.symm
    | none =>
      rw [call_eq_enter hhalts hnext]
      exact awaited_of_none ((settlement_enter _ _).trans hchecked)

theorem Arrived.awaited {i : Nat} {s : Step} {top : OpenFrame} {outer : List OpenFrame}
    (harrived : Arrived i s top outer b) (hnone : b.settlement = none)
    (hstart : ∀ {id : Nat} {f : Frame}, b.frames[id]? = some f → f.start ≤ i) :
    Awaited steps i s (b.execute steps i s) := by
  unfold Progress.execute
  split
  · exact harrived.awaited_call hnone _
  · exact harrived.awaited_terminate hstart _
  · refine awaited_of_none ?_
    unfold Progress.log
    split
    · exact hnone
    · exact hnone
  · exact awaited_of_none hnone

theorem awaited_reached {trace : Trace} {i : Nat} {s : Step} (hs : trace.steps[i]? = some s)
    (hopened : (reached tx trace.steps i).opened ≠ []) :
    Awaited trace.steps i s (reached tx trace.steps (i + 1)) := by
  have hle : i ≤ trace.steps.size := Nat.le_of_lt (Array.getElem?_eq_some_iff.1 hs).1
  have hran := size_owners_reached tx hle
  have hb := contiguous_reached tx hle
  have hc := coherent_reached tx hle
  obtain ⟨top, outer, harrived⟩ := arrived_reached hs hb hopened
  rw [reached_succ hs, step_eq_execute hopened]
  generalize reached tx trace.steps i = b at *
  subst hran
  exact harrived.awaited (settlement_settle _ s) (start_le_of_arrive hc hs)

/-- The frame at the top of those that are opened without a call is a new one. -/
theorem line_enterUnseen (hopened : b.opened ≠ []) (i count : Nat) :
    ∃ p rest, (b.enterUnseen i (count + 1)).line = p :: rest ∧ b.frames.size ≤ p := by
  induction count generalizing b with
  | zero =>
    obtain ⟨top, outer, hcons⟩ := List.exists_cons_of_ne_nil hopened
    exact ⟨_, _, line_enter hcons _, Nat.le_refl _⟩
  | succ count ih =>
    obtain ⟨p, rest, hline, hle⟩ := ih (enter_ne_nil b
      { parent := none, callType := .call, level := 0, start := i } hopened)
    refine ⟨p, rest, hline, ?_⟩
    rw [frames_enter, size_frames_add b _ hopened] at hle
    exact Nat.le_of_succ_le hle

theorem exists_of_frames_enterUnseen (hopened : b.opened ≠ []) {i count id : Nat} {f' : Frame}
    (hf' : (b.enterUnseen i count).frames[id]? = some f') (hid : id < b.frames.size) :
    ∃ f, b.frames[id]? = some f ∧ f.SameEnd f' := by
  induction count generalizing b with
  | zero => exact ⟨f', hf', .refl f'⟩
  | succ count ih =>
    obtain ⟨top, outer, hcons⟩ := List.exists_cons_of_ne_nil hopened
    have hsize : id < (b.enter { parent := none, callType := .call, level := 0, start := i }).frames.size := by
      rw [frames_enter, size_frames_add b _ hopened]
      exact Nat.lt_succ_of_lt hid
    obtain ⟨g, hg, hsame⟩ := ih (enter_ne_nil b _ hopened) hf' hsize
    rw [frames_enter] at hg
    rcases exists_of_frames_add hcons hg Frame.SameEnd.refl
      (fun _ _ => ⟨rfl, rfl, rfl, rfl, rfl, rfl⟩) with ⟨f, hf, hsame'⟩ | ⟨heq, _⟩
    · exact ⟨f, hf, hsame'.trans hsame⟩
    · exact absurd heq (Nat.ne_of_lt hid)

theorem settlement_enterUnseen (b : Progress) (i count : Nat) :
    (b.enterUnseen i count).settlement = b.settlement := by
  induction count generalizing b with
  | zero => rfl
  | succ count ih => rw [enterUnseen, ih, settlement_enter]

/-- A step above the innermost open frame runs above the step before it. -/
theorem Standing.depth_lt {k : Nat} {s t : Step} (h : Standing steps k s b)
    (ht : steps[k + 1]? = some t) {top : OpenFrame} {outer : List OpenFrame}
    (hopened : b.opened = top :: outer) (hlt : t.depth < top.depth) : t.depth < s.depth := by
  cases h with
  | inside hcons hdepth =>
    obtain ⟨rfl, rfl⟩ := List.cons.inj (hcons.symm.trans hopened)
    omega
  | entered hcons hdepth hnext =>
    obtain ⟨rfl, rfl⟩ := List.cons.inj (hcons.symm.trans hopened)
    have := hnext t ht
    omega
  | left hcons hdepth =>
    obtain ⟨rfl, rfl⟩ := List.cons.inj (hcons.symm.trans hopened)
    omega
  | ended hclosed =>
    rw [hclosed] at hopened
    cases hopened

/-- A step above the one before it is one of the caller of what has just ended. -/
theorem Returned.told {k : Nat} {s t : Step} (h : Returned k b) (hs : steps[k]? = some s)
    (hran : b.owners.size = k + 1) (hlt : t.depth < s.depth) : Told steps t b := by
  intro st f p rest hst hf hinner hline
  obtain ⟨hk, hparent⟩ := h st f p rest hst hf hinner hline
  exact ⟨k, s, hran, hk, hs, iff_of_true hparent (.inr hlt)⟩

theorem Told.setDepth {t : Step} (h : Told steps t b) (depth : Nat) :
    Told steps t (b.setDepth depth) := by
  unfold Told at h ⊢
  rw [settlement_setDepth, frames_setDepth, line_setDepth, owners_setDepth]
  exact h

/-- A step at the depth of the innermost frame is one of the caller of what has just ended. -/
theorem Awaited.told_level {k : Nat} {s t : Step} (h : Awaited steps k s b) (hs : steps[k]? = some s)
    (hran : b.owners.size = k + 1) {top : OpenFrame} {outer : List OpenFrame}
    (hopened : b.opened = top :: outer) (hdepth : top.depth = t.depth) : Told steps t b := by
  intro st f p rest hst hf hinner hline
  obtain ⟨hk, hparent⟩ := h.returned st f p rest hst hf hinner hline
  obtain ⟨_, hend⟩ := h st f top outer hst hf hopened
  refine ⟨k, s, hran, hk, hs, iff_of_true hparent ?_⟩
  rcases hend with ⟨_, hdepth'⟩ | ⟨hstop, _⟩
  · exact .inr (by omega)
  · exact .inl hstop

/-- A step further inside runs in a frame that is opened for it, which called nothing yet. -/
theorem Awaited.told_enterUnseen {k : Nat} {s t : Step} (h : Awaited steps k s b)
    (hs : steps[k]? = some s) (ht : steps[k + 1]? = some t) (hran : b.owners.size = k + 1)
    (hc : Coherent b) (hsettled : ∀ {st : Settlement}, b.settlement = some st → st.id < b.frames.size)
    {top : OpenFrame} {outer : List OpenFrame} (hopened : b.opened = top :: outer)
    (hlt : top.depth < t.depth) (count : Nat) :
    Told steps t (b.enterUnseen (k + 1) (count + 1)) := by
  intro st f p rest hst hf hinner hline
  rw [settlement_enterUnseen] at hst
  have hne : b.opened ≠ [] := hopened ▸ List.cons_ne_nil top outer
  obtain ⟨g, hg, hsame⟩ := exists_of_frames_enterUnseen hne hf (hsettled hst)
  obtain ⟨hparent, hend⟩ := h st g top outer hst hg hopened
  have hk := (h.returned st g _ _ hst hg (hsame.isInnerCreation_iff.1 hinner)
    (line_of_opened hopened)).1
  refine ⟨k, s, by rw [owners_enterUnseen, hran], by rw [hsame.stop, hsame.callStep]; exact hk, hs, ?_⟩
  rw [hsame.parent, hsame.stop, hparent]
  refine iff_of_false ?_ ?_
  · obtain ⟨p', rest', hline', hnew⟩ := line_enterUnseen hne (k + 1) count
    obtain ⟨rfl, _⟩ := List.cons.inj (hline.symm.trans hline')
    have htop := hc.lt_size_of_mem_line (line_of_opened hopened ▸ List.mem_cons_self)
    rw [Option.some.injEq]
    omega
  · rcases hend with ⟨hstop, hdepth⟩ | ⟨_, _, hnext⟩
    · rw [hstop]
      rintro (hnone | hlt')
      · cases hnone
      · omega
    · have hdepth := hnext t ht
      omega

/-- What the step after the one at `k` tells. -/
theorem Aligned.told {k : Nat} {s t : Step} (haligned : Aligned steps (k + 1) t.depth b b')
    (hs : steps[k]? = some s) (ht : steps[k + 1]? = some t) (hmax : t.depth ≤ maxCallDepth + 1)
    (hran : b.owners.size = k + 1) (h : Creations steps b) (hc : Coherent b) (hstamped : Stamped b)
    (hstanding : Standing steps k s b) (hawaited : Awaited steps k s b) : Told steps t b' := by
  cases haligned with
  | level hopened hdepth => exact hawaited.told_level hs hran hopened hdepth
  | @halted top outer hopened houter hdepth =>
    have hends : Ends steps b ⟨before b.owners.size, .invalid, some [],
        (before b.owners.size).bind fun p => steps[p]?.bind (·.error)⟩ :=
      .halted (by rw [hran]; exact ht) hopened houter hdepth
    rw [hran] at hends
    exact (returned_close h hc hran hends).told hs (by rw [owners_close, hran])
      (hstanding.depth_lt ht hopened (by omega))
  | @jumped top outer hopened hne hnot =>
    have hawaited' : Awaited steps k s (b.record (.depthJump (k + 1) top.depth t.depth)) := hawaited
    have hc' : Coherent (b.record (.depthJump (k + 1) top.depth t.depth)) :=
      hc.congr rfl rfl rfl rfl
    unfold Progress.realign
    apply Told.setDepth
    split
    · next hlt =>
      have h' : Creations steps (b.record (.depthJump (k + 1) top.depth t.depth)) :=
        h.congr rfl rfl rfl
      have habove := hawaited'.returned.closeAbove h' hc' hran t.depth
      rw [owners_record, hran] at habove
      exact habove.told hs (by rw [owners_closeAbove, owners_record, hran])
        (hstanding.depth_lt ht hopened hlt)
    · next hge =>
      have hcount : min t.depth (maxCallDepth + 1) - top.depth =
          min t.depth (maxCallDepth + 1) - top.depth - 1 + 1 := by omega
      rw [hcount]
      exact hawaited'.told_enterUnseen hs ht hran hc' (fun hst => (hstamped.settled hst).1) hopened
        (by omega) _

theorem told_reached {trace : Trace} {n : Nat} {t : Step} (ht : trace.steps[n]? = some t)
    (h : Creations trace.steps (reached tx trace.steps n))
    (hopened : (reached tx trace.steps n).opened ≠ []) :
    Told trace.steps t ((reached tx trace.steps n).align trace.steps n t.depth) := by
  have hlt : n < trace.steps.size := (Array.getElem?_eq_some_iff.1 ht).1
  have hle := Nat.le_of_lt hlt
  have hran := size_owners_reached tx hle
  cases n with
  | zero =>
    have hopened : (reached tx trace.steps 0).opened = [⟨0, t.depth⟩] := by
      simp [reached_zero, ofTransaction, ht]
    rw [align_of_depth hopened]
    intro st f p rest hst
    cases hst
  | succ k =>
    have hs : trace.steps[k]? = some trace.steps[k] := Array.getElem?_eq_getElem (by omega)
    have hopened' := reached_ne_nil_of_le (Nat.le_succ k) hle hopened
    have hb := contiguous_reached tx hle
    refine (aligned_align hb hopened (k + 1) t.depth).told hs ht
      (trace.depth_le t (Array.mem_of_getElem? ht)) hran h
      (coherent_reached tx hle) ?_ (standing_reached tx hs hopened') (awaited_reached hs hopened')
    exact stamped_of_moves (moves_reached (Nat.zero_le _) hle)

theorem creations_step {trace : Trace} {n : Nat} {t : Step} (ht : trace.steps[n]? = some t)
    (h : Creations trace.steps (reached tx trace.steps n)) :
    Creations trace.steps (reached tx trace.steps (n + 1)) := by
  have hle : n ≤ trace.steps.size := Nat.le_of_lt (Array.getElem?_eq_some_iff.1 ht).1
  have hran := size_owners_reached tx hle
  rw [reached_succ ht]
  by_cases hopened : (reached tx trace.steps n).opened = []
  · rw [step_eq_trail hopened]
    have hextends : Extends (reached tx trace.steps n) ((reached tx trace.steps n).trail n) :=
      .of_push rfl rfl
    exact h.of_frames hextends.owners (fun hid _ => hid) fun hf => .inl ⟨_, hf, .refl _⟩
  · have htold := told_reached ht h hopened
    have ht' : trace.steps[(reached tx trace.steps n).owners.size]? = some t := by rw [hran, ht]
    have hstamped := stamped_of_moves ((moves_reached (Nat.zero_le n) hle).trans (moves_align _ ht'))
    rw [step_eq_execute hopened]
    generalize reached tx trace.steps n = b at *
    subst hran
    have harrive : Creations trace.steps (b.arrive trace.steps b.owners.size t) := by
      have hne : (b.align trace.steps b.owners.size t.depth).opened ≠ [] := align_ne_nil hopened
      obtain ⟨top, outer, hcons⟩ := List.exists_cons_of_ne_nil hne
      refine (h.align ht).settle_own hstamped hcons ?_ htold
      rw [owners_align]
      exact ht
    refine harrive.execute (arrive_ne_nil hopened _ t) ht ?_
    rw [size_owners_arrive]

theorem creations_ofTransaction (tx : Transaction) (steps : Array Step) :
    Creations steps (ofTransaction tx steps) := by
  have hroot {id : Nat} {f : Frame} (hf : (ofTransaction tx steps).frames[id]? = some f) :
      ¬ f.IsInnerCreation := by
    obtain ⟨_, rfl⟩ := Array.getElem?_eq_some_iff.1 hf
    simp [ofTransaction, Frame.IsInnerCreation]
  constructor
  case called => exact fun hf hinner => absurd hinner (hroot hf)
  case unnamed => exact fun hf _ hinner => absurd hinner (hroot hf)
  case learned => exact fun hf hinner _ => absurd hinner (hroot hf)

theorem creations_reached (tx : Transaction) {trace : Trace} {n : Nat} (hn : n ≤ trace.steps.size) :
    Creations trace.steps (reached tx trace.steps n) := by
  induction n with
  | zero => exact creations_ofTransaction tx trace.steps
  | succ n ih => exact creations_step (Array.getElem?_eq_getElem hn) (ih (Nat.le_of_succ_le hn))

theorem creations_closed (tx : Transaction) (trace : Trace) :
    Creations trace.steps (closed tx trace) := by
  refine closed_preserves (creations_reached tx (Nat.le_refl _)) ?_ ?_ ?_
  · intro b _ h
    refine h.of_frames (fun ho => ho) (fun hid _ => by cases hid) fun hf' => .inl ?_
    exact exists_of_frames_modify hf' .refl fun f => ⟨rfl, rfl, rfl, rfl, rfl, rfl⟩
  · intro b ending _ h
    exact h.close ending
  · intro b a h
    exact h.congr rfl rfl rfl

end Progress

namespace CallTree

/-- What a trace says of the address of a contract that another one creates. The very next step after
    the frame of the creation has it on top of its stack. That step belongs to the caller exactly if
    the frame ran no step, or the step runs above the last one of the frame. -/
theorem created_named_ofTrace (tx : Transaction) (trace : Trace) (r : Registry) {id : Nat} {f : Frame}
    {a : Address} (hf : ((ofTrace tx trace).1.named r).1.frame? id = some f)
    (hinner : f.IsInnerCreation) (hcallee : f.callee = some a) :
    ∃ k s t w o, f.stop.or f.callStep = some k ∧ trace.steps[k]? = some s ∧
      trace.steps[k + 1]? = some t ∧ t.stackTop 0 = some w ∧ w ≠ 0 ∧ w.toAddress = a ∧
      ((ofTrace tx trace).1.named r).1.owner? (k + 1) = some o ∧
      (f.parent = some o ↔ f.stop = none ∨ t.depth < s.depth) := by
  have hid : id ≠ 0 := by
    rintro rfl
    obtain ⟨root, hroot, hparent, _⟩ := (arranged_named_ofTrace tx trace r).root
    obtain rfl := Option.some.inj (hroot.symm.trans (places_eq_some hf))
    have hsome : f.place.parent.isSome := hinner.2
    rw [hparent] at hsome
    cases hsome
  rw [frame?_named_ofTrace] at hf
  obtain ⟨g, hg, rfl⟩ := Option.map_eq_some_iff.1 hf
  rw [finalFrame_of_ne_zero tx trace r hid] at hinner hcallee ⊢
  obtain ⟨k, s, t, w, o, hk, hs, ht, hw, hne, ha, ho, hiff⟩ :=
    (Progress.creations_closed tx trace).learned hg hinner hcallee
  exact ⟨k, s, t, w, o, hk, hs, ht, hw, hne, ha, owner?_named_ofTrace tx trace r ho, hiff⟩

/-- A contract creates another one, and the depth jumps down when the creation has ended. -/
def creationWithJump : Trace where
  steps :=
    #[⟨0, "CREATE", 1, 100, 10, [0, 0, 0], none, none, none, none⟩,
      ⟨0, "STOP", 2, 80, 0, [], none, none, none, none⟩,
      ⟨0, "JUMPDEST", 2, 69, 1, [0xaa], none, none, none, none⟩]
  dropped := []
  gasUsed := none
  failed := none
  returnValue := none
  depth_le := by simp [maxCallDepth]

/-- The tree of a call of the contract `0xbb` that creates a contract and calls another one unseen. -/
def jumpingTree : CallTree :=
  ((ofTrace callOfContract creationWithJump).1.named Registry.empty).1

/-- The frame of the contract that is created. -/
def jumpedFrame : Frame := (jumpingTree.frame? 1).get (by decide +kernel)

theorem jumpingTree_jumpedFrame : jumpingTree.frame? 1 = some jumpedFrame := (Option.some_get _).symm

theorem jumpedFrame_spec : jumpedFrame.IsInnerCreation ∧ jumpedFrame.callee = some 0xaa ∧
    jumpedFrame.parent = some 0 ∧ jumpedFrame.stop = some 1 ∧ jumpingTree.owner? 2 = some 2 := by
  decide +kernel

theorem created_named_ofTrace_jumpedFrame :
    ∃ k s t w o, jumpedFrame.stop.or jumpedFrame.callStep = some k ∧
      creationWithJump.steps[k]? = some s ∧ creationWithJump.steps[k + 1]? = some t ∧
      t.stackTop 0 = some w ∧ w ≠ 0 ∧ w.toAddress = 0xaa ∧ jumpingTree.owner? (k + 1) = some o ∧
      (jumpedFrame.parent = some o ↔ jumpedFrame.stop = none ∨ t.depth < s.depth) :=
  created_named_ofTrace callOfContract creationWithJump Registry.empty jumpingTree_jumpedFrame
    jumpedFrame_spec.1 jumpedFrame_spec.2.1

/-- The address of a contract that another one creates is not always on the stack of a step of the
    creator. -/
theorem not_forall_created_named_ofTrace :
    ¬ ∀ (tx : Transaction) (trace : Trace) (r : Registry) (id : Nat) (f : Frame) (a : Address),
        ((ofTrace tx trace).1.named r).1.frame? id = some f → f.IsInnerCreation →
        f.callee = some a → ∃ k, f.stop.or f.callStep = some k ∧
          ((ofTrace tx trace).1.named r).1.owner? (k + 1) = f.parent := by
  intro h
  obtain ⟨hinner, hcallee, hparent, hstop, howner⟩ := jumpedFrame_spec
  obtain ⟨k, hk, hcaller⟩ := h callOfContract creationWithJump Registry.empty 1 jumpedFrame 0xaa
    jumpingTree_jumpedFrame hinner hcallee
  rw [hstop, Option.some_or] at hk
  obtain rfl := Option.some.inj hk
  have hsame : (some 2 : Option Nat) = some 0 := howner.symm.trans (hcaller.trans hparent)
  cases hsame

end CallTree

end TxTrace

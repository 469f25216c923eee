import TxTrace.Proofs.CallTree.Persistence
import TxTrace.Proofs.CallTree.Standing

/-!
What the frame of a call has from the step that makes it (`CallTree.calledAt_named_ofTrace`): its input,
and, unless it creates a contract, the address of its code. A call in an open frame gets a frame
unless it halts its caller (`CallTree.exists_frame?_of_call`).
-/

namespace TxTrace

/-- The frame has its input and callee from the operands of the step. A creation learns its callee
    later. -/
structure Frame.CalledBy (f : Frame) (s : Step) : Prop where
  kind : s.kind = .call f.callType
  input : f.input = ((Operands.ofStack? f.callType s.stack).bind fun o =>
    s.readMemory o.inputOffset o.inputLength).getD []
  callee : ¬ f.callType.isCreate → f.callee = (Operands.ofStack? f.callType s.stack).bind (·.target)

/-- The frame is what its call step says, if its call was seen. -/
def Frame.CalledAt (steps : Array Step) (f : Frame) : Prop :=
  ∀ j, f.callStep = some j → ∃ s, steps[j]? = some s ∧ f.CalledBy s

/-- What a frame has from its call is the same of both frames. -/
structure Frame.SameTarget (f f' : Frame) : Prop where
  callType : f'.callType = f.callType
  callStep : f'.callStep = f.callStep
  input : f'.input = f.input
  callee : ¬ f.callType.isCreate → f'.callee = f.callee

theorem Frame.CalledAt.congr {steps : Array Step} {f f' : Frame} (h : f.CalledAt steps)
    (hsame : f.SameTarget f') : f'.CalledAt steps := by
  intro j hj
  obtain ⟨s, hs, hcalled⟩ := h j (hsame.callStep ▸ hj)
  refine ⟨s, hs, ?_⟩
  constructor
  case kind => rw [hsame.callType, hcalled.kind]
  case input => rw [hsame.callType, hsame.input, hcalled.input]
  case callee =>
    intro hcreate
    rw [hsame.callType] at hcreate ⊢
    rw [hsame.callee hcreate, hcalled.callee hcreate]

theorem Frame.Change.sameTarget {steps : Array Step} {f f' : Frame} (h : f.Change steps f') :
    f.SameTarget f' := by
  cases h with
  | settle s needsOutput =>
    refine ⟨rfl, rfl, rfl, fun hcreate => ?_⟩
    simp only [Frame.settle, if_neg hcreate, Option.none_or]
  | _ => exact ⟨rfl, rfl, rfl, fun _ => rfl⟩

namespace Progress

variable {tx : Transaction} {steps : Array Step} {b b' : Progress}

theorem Begins.calledAt {f : Frame} (h : Begins steps b f) : f.CalledAt steps := by
  intro j hj
  cases h with
  | unseen => cases hj
  | called status hs hran hkind =>
    obtain rfl := Option.some.inj hj
    exact ⟨_, hs, hkind, rfl, fun _ => rfl⟩

theorem calledAt_closed (tx : Transaction) (trace : Trace) {id : Nat} {f : Frame}
    (hf : (closed tx trace).frames[id]? = some f) : f.CalledAt trace.steps := by
  refine forall_frames_closed tx trace ?_ ?_ (fun hchange h => h.congr hchange.sameTarget) hf
  · intro root hroot j hj
    obtain rfl := Option.some.inj hroot
    cases hj
  · exact fun hbegins _ _ => hbegins.calledAt.congr ⟨rfl, rfl, rfl, fun _ => rfl⟩

/-- A call that does not halt its caller gets a frame. -/
theorem exists_frame_of_call {i : Nat} {s : Step} (type : CallType) (hopened : b.opened ≠ [])
    (herror : s.error = none) (hnext : ∀ next, steps[i + 1]? = some next → s.depth ≤ next.depth) :
    ∃ (id : Nat) (f : Frame), (b.call steps i s type).frames[id]? = some f ∧ f.callStep = some i := by
  have hgoes : ¬ (s.error.isSome ∨ (steps[i + 1]?).any (·.depth < s.depth)) := by
    rw [herror, not_or]
    refine ⟨by simp, ?_⟩
    rw [Option.any_eq_true]
    rintro ⟨next, hsome, hlt⟩
    exact Nat.not_lt.2 (hnext next hsome) (of_decide_eq_true hlt)
  obtain ⟨top, outer, hcons⟩ := List.exists_cons_of_ne_nil hopened
  have hcons' := (opened_checkOperands i s type b).trans hcons
  have hadd (f : Frame) (hf : f.callStep = some i) :
      ∃ (id : Nat) (f' : Frame), ((b.checkOperands i s type).add f).frames[id]? = some f' ∧
        f'.callStep = some i := by
    have hnew := getElem?_frames_add _ f hcons' (b.checkOperands i s type).frames.size
    rw [if_pos rfl] at hnew
    exact ⟨_, _, hnew, hf⟩
  cases hcodeless : (steps[i + 1]?).filter (·.depth = s.depth) with
  | some next =>
    rw [call_eq_add hgoes hcodeless]
    exact hadd _ rfl
  | none =>
    rw [call_eq_enter hgoes hcodeless, frames_enter]
    exact hadd _ rfl

end Progress

namespace CallTree

theorem sameTarget_finalFrame (tx : Transaction) (trace : Trace) (r : Registry) (id : Nat)
    (f : Frame) : f.SameTarget (finalFrame tx trace r id f) := by
  unfold finalFrame
  split
  · exact ⟨rfl, rfl, rfl, fun _ => rfl⟩
  · exact ⟨rfl, rfl, rfl, fun _ => rfl⟩

/-- Frames have their input, and their callee unless they create it, from the steps that call them. -/
theorem calledAt_named_ofTrace (tx : Transaction) (trace : Trace) (r : Registry) {id : Nat} {f : Frame}
    (hf : ((ofTrace tx trace).1.named r).1.frame? id = some f) : f.CalledAt trace.steps := by
  rw [frame?_named_ofTrace] at hf
  obtain ⟨g, hg, rfl⟩ := Option.map_eq_some_iff.1 hf
  exact (Progress.calledAt_closed tx trace hg).congr (sameTarget_finalFrame tx trace r id g)

/-- A call in an open frame gets a frame, unless it fails or the next step runs further out. -/
theorem exists_frame?_of_call (tx : Transaction) (trace : Trace) (r : Registry) {i : Nat} {s : Step}
    {type : CallType} (hs : trace.steps[i]? = some s) (hkind : s.kind = .call type)
    (hopened : (Progress.reached tx trace.steps i).opened ≠ []) (herror : s.error = none)
    (hnext : ∀ next, trace.steps[i + 1]? = some next → s.depth ≤ next.depth) :
    ∃ id f, ((ofTrace tx trace).1.named r).1.frame? id = some f ∧ f.callStep = some i := by
  have hi : i < trace.steps.size := (Array.getElem?_eq_some_iff.1 hs).1
  obtain ⟨last, hlast⟩ := Progress.exists_back?_eq_some hi
  have hstep : Progress.reached tx trace.steps (i + 1) =
      ((Progress.reached tx trace.steps i).arrive trace.steps i s).call trace.steps i s type := by
    rw [Progress.reached_succ hs, Progress.step_eq_execute hopened, Progress.execute, hkind]
  have hopened' : ((Progress.reached tx trace.steps i).arrive trace.steps i s).opened ≠ [] :=
    Progress.arrive_ne_nil hopened i s
  obtain ⟨id, f, hf, hcall⟩ := Progress.exists_frame_of_call type hopened' herror hnext
  rw [← hstep] at hf
  obtain ⟨f', hf', hsame⟩ := (Progress.extends_closed tx hlast hi).frames hf
  refine ⟨id, finalFrame tx trace r id f', ?_, ?_⟩
  · rw [frame?_named_ofTrace, hf', Option.map_some]
  · rw [(sameCall_finalFrame tx trace r id f').callStep, hsame.callStep, hcall]

end CallTree

end TxTrace

import TxTrace.Proofs.CallTree.LastStep
import TxTrace.Proofs.CallTree.Operands
import TxTrace.Proofs.CallTree.Output

/-!
What the frames of a tree are called with and what they return (`CallTree.payloads_named_ofTrace`). The
input of a frame is a slice of its caller's memory, and what it returns is one of its own. What cannot be
read there is taken from the next step.
-/

namespace TxTrace

namespace CallTree

/-- What the steps say of what the frames of a tree are called with and return. -/
structure Payloads (tree : CallTree) (trace : Trace) : Prop where
  /-- A call has its operands from the stack, and its input from the memory of the caller. -/
  called : ∀ {id f i}, tree.frame? id = some f → f.callStep = some i →
    ∃ s, trace.steps[i]? = some s ∧ s.kind = .call f.callType ∧
      (f.callType.pops ≤ s.stack.length + f.callType.outputWords →
        ∃ o : Operands, o.Stand f.callType s.stack ∧ f.value = o.value ∧
          (¬ f.callType.isCreate → f.callee = o.target) ∧
          f.input = (s.slice? o.inputOffset o.inputLength).getD [])
  /-- A frame returns what its terminal instruction does. If that cannot be read, the next step tells
      if it is one of the caller. -/
  ended : ∀ {id f i s t}, tree.frame? id = some f → id ≠ 0 → tree.owner? i = some id →
    trace.steps[i]? = some s → s.kind = .terminal t →
    (∀ output, s.payload? t = some output → f.output = output) ∧
      (s.payload? t = none → ∀ next, trace.steps[i + 1]? = some next →
        tree.owner? (i + 1) = f.parent → f.output = next.returnData.getD [])
  halted : ∀ {id f}, tree.frame? id = some f → id ≠ 0 → f.status = .invalid →
    ¬ f.IsCodeless trace.steps → f.output = []
  codeless : ∀ {id f i s next}, tree.frame? id = some f → f.callStep = some i →
    trace.steps[i]? = some s → trace.steps[i + 1]? = some next → next.depth = s.depth →
    f.output = next.returnData.getD []
  /-- The first terminal instruction of the outermost frame ends it. If it returns nothing the node
      tells. -/
  root_ended : ∀ {i s t}, tree.owner? i = some 0 → trace.steps[i]? = some s → s.kind = .terminal t →
    (∀ j < i, ∀ s', tree.owner? j = some 0 → trace.steps[j]? = some s' → ¬ s'.IsTerminal) →
    tree.root.output =
      if (s.payload? t).getD [] = [] then trace.returnValue.getD [] else (s.payload? t).getD []
  root_open : (∀ i s, tree.owner? i = some 0 → trace.steps[i]? = some s → ¬ s.IsTerminal) →
    tree.root.output = trace.returnValue.getD []

theorem owners_of_owner? {tx : Transaction} {trace : Trace} {r : Registry} {i id : Nat}
    (h : ((ofTrace tx trace).1.named r).1.owner? i = some id) :
    (Progress.closed tx trace).owners[i]? = some id := by
  have howner := (Option.filter_eq_some_iff.1 h).1
  rwa [owners_named, Progress.owners_ofTrace] at howner

/-- As long as frames are open a step belongs to the innermost one. -/
theorem arrived_of_owner? {tx : Transaction} {trace : Trace} {r : Registry} {i id : Nat} {s : Step}
    (hs : trace.steps[i]? = some s)
    (howner : ((ofTrace tx trace).1.named r).1.owner? i = some id)
    (hopened : (Progress.reached tx trace.steps i).opened ≠ []) :
    ∃ top outer, top.id = id ∧ Progress.Arrived i s top outer
      ((Progress.reached tx trace.steps i).arrive trace.steps i s) := by
  have hle : i ≤ trace.steps.size := Nat.le_of_lt (Array.getElem?_eq_some_iff.1 hs).1
  obtain ⟨top, outer, harrived⟩ :=
    Progress.arrived_reached hs (Progress.contiguous_reached tx hle) hopened
  have hclosed := (Progress.moves_arrive_closed hs hopened).extends.owners harrived.owner
  exact ⟨top, outer, Option.some.inj (hclosed.symm.trans (owners_of_owner? howner)), harrived⟩

/-- A frame was called from the one around it. -/
theorem parent_of_arrived {tx : Transaction} {trace : Trace} {r : Registry} {i : Nat} {s : Step}
    {top caller : OpenFrame} {around : List OpenFrame} {f : Frame} (hs : trace.steps[i]? = some s)
    (hopened : (Progress.reached tx trace.steps i).opened ≠ [])
    (harrived : Progress.Arrived i s top (caller :: around)
      ((Progress.reached tx trace.steps i).arrive trace.steps i s))
    (hf : ((ofTrace tx trace).1.named r).1.frame? top.id = some f) : f.parent = some caller.id := by
  have hline := Progress.line_of_opened harrived.opened
  have hframe := Array.getElem?_eq_getElem
    (harrived.coherent.lt_size_of_mem_line (hline ▸ List.mem_cons_self))
  obtain ⟨g, hg, hsame⟩ := (Progress.moves_arrive_closed hs hopened).extends.frames hframe
  rw [frame?_named_ofTrace, hg, Option.map_some, Option.some.injEq] at hf
  rw [← hf, (sameCall_finalFrame tx trace r top.id g).parent, hsame.parent]
  exact harrived.coherent.parent_eq_some hline hframe

theorem output_of_yields {tx : Transaction} {trace : Trace} {r : Registry} {id : Nat} {f : Frame}
    {output : Bytes} (hf : ((ofTrace tx trace).1.named r).1.frame? id = some f) (hid : id ≠ 0)
    (h : Progress.Yields id output (Progress.closed tx trace)) : f.output = output := by
  rw [frame?_named_ofTrace] at hf
  obtain ⟨g, hg, rfl⟩ := Option.map_eq_some_iff.1 hf
  obtain ⟨g', hg', houtput⟩ := h.frame
  obtain rfl := Option.some.inj (hg.symm.trans hg')
  rw [finalFrame_of_ne_zero tx trace r hid]
  exact houtput

theorem output_root_of_closed {tx : Transaction} {trace : Trace} {r : Registry} {f : Frame}
    (hf : (Progress.closed tx trace).frames[0]? = some f) :
    ((ofTrace tx trace).1.named r).1.root.output =
      if f.output = [] then trace.returnValue.getD [] else f.output := by
  have hroot := frame?_root ((ofTrace tx trace).1.named r).1
  rw [frame?_named_ofTrace, hf, Option.map_some, Option.some.injEq] at hroot
  rw [← hroot]
  simp only [finalFrame, if_true, Progress.finishRoot, List.isEmpty_iff]

theorem called_named_ofTrace (tx : Transaction) (trace : Trace) (r : Registry) {id i : Nat} {f : Frame}
    (hf : ((ofTrace tx trace).1.named r).1.frame? id = some f) (hcall : f.callStep = some i) :
    ∃ s, trace.steps[i]? = some s ∧ s.kind = .call f.callType ∧
      (f.callType.pops ≤ s.stack.length + f.callType.outputWords →
        ∃ o : Operands, o.Stand f.callType s.stack ∧ f.value = o.value ∧
          (¬ f.callType.isCreate → f.callee = o.target) ∧
          f.input = (s.slice? o.inputOffset o.inputLength).getD []) := by
  obtain ⟨s, hs, hcalled⟩ := calledAt_named_ofTrace tx trace r hf i hcall
  obtain ⟨s', hmakes⟩ := makes_named_ofTrace tx trace r hf hcall
  obtain rfl := Option.some.inj (hs.symm.trans hmakes.step)
  refine ⟨s, hs, hcalled.kind, fun hheld => ?_⟩
  obtain ⟨o, ho⟩ : ∃ o, Operands.ofStack? f.callType s.stack = some o := by
    rw [← Option.ne_none_iff_exists', Ne, Operands.ofStack?_eq_none_iff]
    omega
  have hlt : i < trace.steps.size := (Array.getElem?_eq_some_iff.1 hs).1
  obtain ⟨last, hlast⟩ := Progress.exists_back?_eq_some hlt
  obtain ⟨_, _, _, hnew⟩ := hmakes.exists_frame
  obtain ⟨g, hg, hsame⟩ := (Progress.extends_closed tx hlast hlt).frames hnew
  have hvalue : f.value = o.value := by
    rw [frame?_named_ofTrace, hg, Option.map_some, Option.some.injEq] at hf
    rw [← hf, (sameCall_finalFrame tx trace r id g).value, hsame.value]
    simp only [Progress.calledFrame, ho, Option.map_some, Option.getD_some]
  refine ⟨o, Operands.stand_of_ofStack? ho, hvalue, fun hcreate => ?_, ?_⟩
  · rw [hcalled.callee hcreate, ho, Option.bind_some]
  · rw [hcalled.input, ho, Option.bind_some, s.readMemory_eq_slice?]

theorem ended_named_ofTrace (tx : Transaction) (trace : Trace) (r : Registry) {id i : Nat} {f : Frame}
    {s : Step} {t : Terminal} (hf : ((ofTrace tx trace).1.named r).1.frame? id = some f) (hid : id ≠ 0)
    (howner : ((ofTrace tx trace).1.named r).1.owner? i = some id) (hs : trace.steps[i]? = some s)
    (hkind : s.kind = .terminal t) :
    (∀ output, s.payload? t = some output → f.output = output) ∧
      (s.payload? t = none → ∀ next, trace.steps[i + 1]? = some next →
        ((ofTrace tx trace).1.named r).1.owner? (i + 1) = f.parent →
        f.output = next.returnData.getD []) := by
  have hlt : i < trace.steps.size := (Array.getElem?_eq_some_iff.1 hs).1
  obtain ⟨last, hlast⟩ := Progress.exists_back?_eq_some hlt
  have hopened : (Progress.reached tx trace.steps i).opened ≠ [] := by
    intro hclosed
    have hzero := Progress.owner_of_closed hlast hlt hclosed
    exact hid (Option.some.inj ((owners_of_owner? howner).symm.trans hzero))
  obtain ⟨top, outer, rfl, harrived⟩ := arrived_of_owner? hs howner hopened
  have houter : outer ≠ [] := fun hnil =>
    hid ((harrived.coherent.outer_eq_nil_iff harrived.opened).1 hnil)
  constructor
  · intro output hknown
    have hyields := harrived.yields_terminal hs hopened hkind (.inr (by rw [hknown]; rfl))
    rw [hknown, Option.getD_some] at hyields
    exact output_of_yields hf hid ((Progress.moves_closed_reached hlast hlt).yields hyields)
  · intro hnone next hnext hcaller
    have hawaits := harrived.awaits_terminal hs hopened hkind houter hnone
    have hline := harrived.line_terminal hs hopened hkind
    -- The frame around it is its caller, and the innermost open one after the step.
    obtain ⟨caller, around, rfl⟩ := List.exists_cons_of_ne_nil houter
    rw [parent_of_arrived hs hopened harrived hf] at hcaller
    have hne : (Progress.reached tx trace.steps (i + 1)).opened ≠ [] := by
      intro hnil
      rw [Progress.line, hnil] at hline
      cases hline
    exact output_of_yields hf hid ((Progress.moves_arrive_closed hnext hne).yields
      (hawaits.yields_arrive hnext hline (owners_of_owner? hcaller)))

/-- A frame is called with the words on the stack of its call and with a slice of its caller's memory.
    It returns a slice of its own memory, or what the caller's next step shows if that cannot be read or
    no code ran, and nothing if it stopped or halted. -/
theorem payloads_named_ofTrace (tx : Transaction) (trace : Trace) (r : Registry) :
    ((ofTrace tx trace).1.named r).1.Payloads trace := by
  constructor
  case called => exact called_named_ofTrace tx trace r
  case ended => exact ended_named_ofTrace tx trace r
  case halted =>
    intro id f hf hid hstatus hcode
    have hframe := hf
    rw [frame?_named_ofTrace] at hframe
    obtain ⟨g, hg, rfl⟩ := Option.map_eq_some_iff.1 hframe
    refine output_of_yields hf hid ((Progress.emptied_closed tx trace).yields hid hg ?_ ?_)
    · rwa [status_finalFrame] at hstatus
    · unfold Frame.IsCodeless at hcode ⊢
      rwa [(sameCall_finalFrame tx trace r id g).callStep] at hcode
  case codeless =>
    intro id f i s next hf hcall hs hnext hdepth
    obtain ⟨s', hmakes⟩ := makes_named_ofTrace tx trace r hf hcall
    obtain rfl := Option.some.inj (hs.symm.trans hmakes.step)
    have hid : id ≠ 0 := by
      rw [← hmakes.size]
      exact Nat.ne_of_gt (Progress.frames_pos _)
    exact output_of_yields hf hid (hmakes.yields_closed hnext hdepth)
  case root_ended =>
    intro i s t howner hs hkind hfirst
    have hlt : i < trace.steps.size := (Array.getElem?_eq_some_iff.1 hs).1
    obtain ⟨last, hlast⟩ := Progress.exists_back?_eq_some hlt
    have hopened : (Progress.reached tx trace.steps i).opened ≠ [] := by
      intro hclosed
      obtain ⟨k, hk, s', hs', howner', hterminal⟩ :=
        Progress.exists_terminal_of_closed (Nat.le_of_lt hlt) hclosed
      exact hfirst k hk s' (owner?_named_ofTrace tx trace r howner') hs' hterminal
    obtain ⟨top, outer, htop, harrived⟩ := arrived_of_owner? hs howner hopened
    have houter := (harrived.coherent.outer_eq_nil_iff harrived.opened).2 htop
    have hyields := harrived.yields_terminal hs hopened hkind (.inl houter)
    rw [htop] at hyields
    obtain ⟨g, hg, houtput⟩ := ((Progress.moves_closed_reached hlast hlt).yields hyields).frame
    rw [output_root_of_closed hg, houtput]
  case root_open =>
    intro hopen
    obtain ⟨g, hg⟩ : ∃ g, (Progress.closed tx trace).frames[0]? = some g :=
      ⟨_, Array.getElem?_eq_getElem (Progress.frames_pos _)⟩
    suffices hnothing : g.output = [] by rw [output_root_of_closed hg, if_pos hnothing]
    rcases Nat.eq_zero_or_pos trace.steps.size with hempty | hpos
    · exact Progress.output_root_of_isEmpty (by simpa using hempty) hg
    · obtain ⟨last, hlast⟩ := Progress.exists_back?_eq_some hpos
      refine Progress.output_root_closed hlast (fun hclosed => ?_) hg
      obtain ⟨k, _, s, hs, howner, hterminal⟩ :=
        Progress.exists_terminal_of_closed (Nat.le_refl _) hclosed
      exact hopen k s (owner?_named_ofTrace tx trace r howner) hs hterminal

/-- A call with two bytes of its caller's memory returns three, of which the last was never written. -/
def callWithMemory : Trace where
  steps :=
    #[⟨0, "CALL", 1, 100, 10, [50, 0xcc, 7, 1, 2, 0, 0], some [0xaa, 0xbb, 0xcc], none, none, none⟩,
      ⟨0, "RETURN", 2, 60, 0, [0, 3], some [1, 2], none, none, none⟩,
      ⟨1, "STOP", 1, 50, 0, [1], none, none, none, none⟩]
  dropped := []
  gasUsed := none
  failed := none
  returnValue := some [5]
  depth_le := by simp [maxCallDepth]

example :
    (((ofTrace ⟨none, 0xee, some 0xbb, [], 0, 0, 0, none, none⟩ callWithMemory).1.named
      Registry.empty).1.frames.toList.map fun f => (f.value, f.input, f.output)) =
    [(0, [], [5]), (7, [0xbb, 0xcc], [1, 2, 0])] := by
  decide +kernel

end CallTree

end TxTrace

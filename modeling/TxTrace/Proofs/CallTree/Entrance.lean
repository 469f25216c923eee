import TxTrace.Proofs.CallTree.Called
import TxTrace.Proofs.CallTree.CallSite

/-!
The steps that make calls. The frame of a call that was seen is the one that its step added to the tree
(`Progress.makes_closed`), so a step calls one frame at most. A frame that ran no step was called by the
last step of the trace, or its caller ran the step after the call (`CallTree.codeless_or_last`).
-/

namespace TxTrace

/-- The call ran no code: the step after it is one of the same depth. -/
def Frame.IsCodeless (steps : Array Step) (f : Frame) : Prop :=
  ∃ i s t, f.callStep = some i ∧ steps[i]? = some s ∧ steps[i + 1]? = some t ∧ t.depth = s.depth

namespace Progress

variable {tx : Transaction} {steps : Array Step} {b b' : Progress}

/-- The step `s` at `i`, which runs in an open frame, makes the call of the frame at `id`. -/
structure Makes (tx : Transaction) (steps : Array Step) (i : Nat) (s : Step) (type : CallType)
    (id : Nat) : Prop where
  step : steps[i]? = some s
  kind : s.kind = .call type
  opened : (reached tx steps i).opened ≠ []
  goes : ¬ (s.error.isSome ∨ (steps[i + 1]?).any (·.depth < s.depth))
  size : ((reached tx steps i).arrive steps i s).frames.size = id

/-- An instruction adds a frame only as a call that does not halt its caller. -/
theorem call_of_execute {i id : Nat} {s : Step} {f : Frame} (hopened : b.opened ≠ [])
    (hf : (b.execute steps i s).frames[id]? = some f) (hid : b.frames.size ≤ id) :
    ∃ type, s.kind = .call type ∧ ¬ (s.error.isSome ∨ (steps[i + 1]?).any (·.depth < s.depth)) ∧
      b.frames.size = id ∧ f.callStep = some i := by
  have hold (hf : b.frames[id]? = some f) : False :=
    Nat.not_lt.2 hid (Array.getElem?_eq_some_iff.1 hf).1
  have hsize {g : Frame → Frame} {k : Nat} (hf : (b.modify k g).frames[id]? = some f) : False := by
    have hlt := (Array.getElem?_eq_some_iff.1 hf).1
    rw [size_frames_modify] at hlt
    omega
  unfold execute at hf
  split at hf
  · next type hkind =>
    by_cases hhalts : s.error.isSome ∨ (steps[i + 1]?).any (·.depth < s.depth)
    · rw [call_eq_self hhalts] at hf
      exact (hold hf).elim
    · have hadd {g : Frame} (hcall : g.callStep = some i)
          (hf : ((b.checkOperands i s type).add g).frames[id]? = some f) :
          b.frames.size = id ∧ f.callStep = some i := by
        obtain ⟨top, outer, hcons⟩ := List.exists_cons_of_ne_nil hopened
        rw [getElem?_frames_add _ g ((opened_checkOperands i s type b).trans hcons),
          frames_checkOperands] at hf
        split at hf
        · next heq =>
          obtain rfl := Option.some.inj hf
          exact ⟨heq.symm, hcall⟩
        · rw [Array.getElem?_eq_none hid] at hf
          simp at hf
      refine ⟨type, hkind, hhalts, ?_⟩
      cases hnext : (steps[i + 1]?).filter (·.depth = s.depth) with
      | some next =>
        rw [call_eq_add hhalts hnext] at hf
        exact hadd rfl hf
      | none =>
        rw [call_eq_enter hhalts hnext, frames_enter] at hf
        exact hadd rfl hf
  · have hlt := (Array.getElem?_eq_some_iff.1 hf).1
    rw [terminate, size_frames_close] at hlt
    omega
  · unfold log at hf
    split at hf
    · exact (hold hf).elim
    · exact (hsize hf).elim
  · exact (hold hf).elim

/-- The frames that a step shows to be open were not seen to be called. -/
theorem callStep_of_arrive (hb : Contiguous b) (hopened : b.opened ≠ []) {i id : Nat} {s : Step}
    {f : Frame} (hf : (b.arrive steps i s).frames[id]? = some f) (hid : b.frames.size ≤ id) :
    f.callStep = none := by
  have hsettled : ((b.align steps i s.depth).settle s).frames[id]? = some f := hf
  have haligned : Aligned steps i s.depth b (b.align steps i s.depth) :=
    aligned_align hb hopened i s.depth
  obtain ⟨g, hg, rfl | ⟨st, _, _, rfl⟩⟩ := exists_of_frames_settle hsettled
  · exact (haligned.unseen hg hid).1
  · exact (haligned.unseen hg hid).1

/-- A frame whose call was seen was called by the step that it names. -/
theorem makes_reached {trace : Trace} {n : Nat} (hn : n ≤ trace.steps.size) {id j : Nat} {f : Frame}
    (hf : (reached tx trace.steps n).frames[id]? = some f) (hj : f.callStep = some j) :
    ∃ s type, Makes tx trace.steps j s type id := by
  induction n generalizing f with
  | zero =>
    obtain ⟨_, rfl⟩ := Array.getElem?_eq_some_iff.1 hf
    simp [reached_zero, ofTransaction] at hj
  | succ n ih =>
    have hle := Nat.le_of_succ_le hn
    have hs : trace.steps[n]? = some trace.steps[n] := Array.getElem?_eq_getElem hn
    have hold {m : Progress} (hextends : Extends m (reached tx trace.steps (n + 1)))
        (hid : id < m.frames.size) : ∃ g, m.frames[id]? = some g ∧ g.callStep = some j := by
      obtain ⟨g, hg, hsame⟩ := hextends.frames (Array.getElem?_eq_getElem hid)
      obtain rfl := Option.some.inj (hf.symm.trans hg)
      exact ⟨_, Array.getElem?_eq_getElem hid, hsame.callStep.symm.trans hj⟩
    rcases Nat.lt_or_ge id (reached tx trace.steps n).frames.size with hid | hid
    · obtain ⟨g, hg, hcall⟩ := hold (moves_reached (Nat.le_succ n) hn).extends hid
      exact ih hle hg hcall
    by_cases hopened : (reached tx trace.steps n).opened = []
    · rw [reached_succ hs, step_eq_trail hopened] at hf
      exact ih hle hf hj
    have hran := size_owners_reached tx hle
    have hopened' : ((reached tx trace.steps n).arrive trace.steps n trace.steps[n]).opened ≠ [] :=
      arrive_ne_nil hopened n _
    have hmoves := moves_execute _ hopened' hs ((size_owners_arrive _ n _).trans (by rw [hran]))
    rw [← step_eq_execute hopened, ← reached_succ hs] at hmoves
    rcases Nat.lt_or_ge id ((reached tx trace.steps n).arrive trace.steps n
      trace.steps[n]).frames.size with hid' | hid'
    · obtain ⟨g, hg, hcall⟩ := hold hmoves.extends hid'
      rw [callStep_of_arrive (contiguous_reached tx hle) hopened hg hid] at hcall
      cases hcall
    · rw [reached_succ hs, step_eq_execute hopened] at hf
      obtain ⟨type, hkind, hgoes, hsize, hcall⟩ := call_of_execute hopened' hf hid'
      obtain rfl := Option.some.inj (hcall.symm.trans hj)
      exact ⟨_, type, hs, hkind, hopened, hgoes, hsize⟩

theorem frames_finishEmpty (b : Progress) (failed : Option Bool) :
    ∃ status, (b.finishEmpty failed).frames = b.frames.modify 0 ({ · with status }) := ⟨_, rfl⟩

theorem makes_closed (tx : Transaction) (trace : Trace) {id j : Nat} {f : Frame}
    (hf : (closed tx trace).frames[id]? = some f) (hj : f.callStep = some j) :
    ∃ s type, Makes tx trace.steps j s type id := by
  have hmodify {b b' : Progress} {k : Nat} {g : Frame → Frame} (hframes : b'.frames = b.frames.modify k g)
      (hg : ∀ f, (g f).callStep = f.callStep)
      (h : ∀ {id : Nat} {f : Frame}, b.frames[id]? = some f → f.callStep = some j →
        ∃ s type, Makes tx trace.steps j s type id) {id : Nat} {f' : Frame}
      (hf' : b'.frames[id]? = some f') (hj : f'.callStep = some j) :
      ∃ s type, Makes tx trace.steps j s type id := by
    rw [hframes] at hf'
    obtain ⟨f, hf, hsame⟩ := exists_of_frames_modify (R := fun f f' => f'.callStep = f.callStep) hf'
      (fun _ => rfl) hg
    exact h hf (hsame.symm.trans hj)
  refine closed_preserves (P := fun b => ∀ {id : Nat} {f : Frame}, b.frames[id]? = some f →
    f.callStep = some j → ∃ s type, Makes tx trace.steps j s type id) ?_ ?_ ?_ ?_ hf hj
  · exact makes_reached (Nat.le_refl _)
  · intro b _ h
    obtain ⟨status, hframes⟩ := b.frames_finishEmpty trace.failed
    exact hmodify hframes (fun _ => rfl) h
  · intro b ending _ h
    cases hopened : b.opened with
    | nil =>
      rw [close_of_nil ending hopened]
      exact h
    | cons top outer => exact hmodify (frames_close b hopened) (fun _ => rfl) h
  · exact fun h => h

/-! ### The frame of a call -/

section Makes

variable {i id : Nat} {s t : Step} {type : CallType}

theorem Makes.reached_succ (h : Makes tx steps i s type id) :
    reached tx steps (i + 1) = ((reached tx steps i).arrive steps i s).call steps i s type := by
  rw [Progress.reached_succ h.step, step_eq_execute h.opened, execute, h.kind]

/-- If the caller runs the next step, a frame is added that ran no code. -/
theorem Makes.reached_eq_add (h : Makes tx steps i s type id) (ht : steps[i + 1]? = some t)
    (hdepth : t.depth = s.depth) :
    reached tx steps (i + 1) =
      let b := (reached tx steps i).arrive steps i s
      { (b.checkOperands i s type).add { b.calledFrame i s type with status := codelessStatus t } with
        settlement := some ⟨id, true⟩ } := by
  have hnext : (steps[i + 1]?).filter (·.depth = s.depth) = some t := by
    rw [ht, Option.filter_some, if_pos (decide_eq_true hdepth)]
  rw [h.reached_succ, call_eq_add h.goes hnext, h.size]

/-- Else the frame is opened. -/
theorem Makes.reached_eq_enter (h : Makes tx steps i s type id)
    (hnext : ∀ t, steps[i + 1]? = some t → t.depth ≠ s.depth) :
    reached tx steps (i + 1) =
      let b := (reached tx steps i).arrive steps i s
      (b.checkOperands i s type).enter (b.calledFrame i s type) := by
  have hnone : (steps[i + 1]?).filter (·.depth = s.depth) = none := by
    rw [Option.filter_eq_none_iff]
    intro t ht
    simpa using hnext t ht
  rw [h.reached_succ, call_eq_enter h.goes hnone]

/-- The frame that is called is what its step says. -/
theorem Makes.exists_frame (h : Makes tx steps i s type id) :
    ∃ status parent level, (reached tx steps (i + 1)).frames[id]? =
      some { ((reached tx steps i).arrive steps i s).calledFrame i s type with status, parent, level } := by
  have hopened : ((reached tx steps i).arrive steps i s).opened ≠ [] := arrive_ne_nil h.opened i s
  obtain ⟨top, outer, hcons⟩ := List.exists_cons_of_ne_nil hopened
  have hadd (f : Frame) := getElem?_frames_add _ f ((opened_checkOperands i s type _).trans hcons) id
  simp only [frames_checkOperands, h.size, if_true] at hadd
  by_cases hnext : ∃ t, steps[i + 1]? = some t ∧ t.depth = s.depth
  · obtain ⟨t, ht, hdepth⟩ := hnext
    rw [h.reached_eq_add ht hdepth]
    exact ⟨_, _, _, hadd _⟩
  · rw [h.reached_eq_enter fun t ht hdepth => hnext ⟨t, ht, hdepth⟩]
    dsimp only
    rw [frames_enter]
    exact ⟨.unknown, _, _, hadd _⟩

/-- The caller is the innermost open frame after a call that ran no code. -/
theorem Makes.opened_add {trace : Trace} (h : Makes tx trace.steps i s type id)
    (ht : trace.steps[i + 1]? = some t) (hdepth : t.depth = s.depth) :
    ∃ caller outer, (reached tx trace.steps (i + 1)).opened = caller :: outer ∧
      caller.depth = s.depth := by
  have hle : i ≤ trace.steps.size := Nat.le_of_lt (Array.getElem?_eq_some_iff.1 h.step).1
  obtain ⟨top, outer, harrived⟩ := arrived_reached h.step (contiguous_reached tx hle) h.opened
  refine ⟨top, outer, ?_, harrived.depth⟩
  rw [h.reached_eq_add ht hdepth]
  exact (Progress.opened_add _ _).trans ((opened_checkOperands i s type _).trans harrived.opened)

/-- A frame that ran no code is not opened. -/
theorem Makes.not_mem_line_add {trace : Trace} (h : Makes tx trace.steps i s type id)
    (ht : trace.steps[i + 1]? = some t) (hdepth : t.depth = s.depth) :
    id ∉ (reached tx trace.steps (i + 1)).line := by
  have hle : i ≤ trace.steps.size := Nat.le_of_lt (Array.getElem?_eq_some_iff.1 h.step).1
  obtain ⟨top, outer, harrived⟩ := arrived_reached h.step (contiguous_reached tx hle) h.opened
  intro hmem
  have hline : id ∈ ((reached tx trace.steps i).arrive trace.steps i s).line := by
    rw [h.reached_eq_add ht hdepth, line, Progress.opened_add, opened_checkOperands] at hmem
    exact hmem
  exact Nat.lt_irrefl _ (h.size ▸ harrived.coherent.lt_size_of_mem_line hline)

/-- The frame is the innermost open one if the caller does not run the next step. -/
theorem Makes.opened_enter {trace : Trace} (h : Makes tx trace.steps i s type id)
    (hnext : ∀ t, trace.steps[i + 1]? = some t → t.depth ≠ s.depth) :
    ∃ outer, (reached tx trace.steps (i + 1)).opened = ⟨id, s.depth + 1⟩ :: outer := by
  have hle : i ≤ trace.steps.size := Nat.le_of_lt (Array.getElem?_eq_some_iff.1 h.step).1
  obtain ⟨top, outer, harrived⟩ := arrived_reached h.step (contiguous_reached tx hle) h.opened
  have hopened (f : Frame) :=
    Progress.opened_enter _ f ((opened_checkOperands i s type _).trans harrived.opened)
  simp only [frames_checkOperands, h.size, harrived.depth] at hopened
  rw [h.reached_eq_enter hnext]
  exact ⟨_, hopened _⟩

end Makes

/-- Once a step has been given to its frame the rest of the trace makes nothing but moves. -/
theorem moves_arrive_closed {trace : Trace} {n : Nat} {t : Step} (ht : trace.steps[n]? = some t)
    (hopened : (reached tx trace.steps n).opened ≠ []) :
    Moves trace.steps ((reached tx trace.steps n).arrive trace.steps n t) (closed tx trace) := by
  have hlt : n < trace.steps.size := (Array.getElem?_eq_some_iff.1 ht).1
  obtain ⟨last, hlast⟩ := exists_back?_eq_some hlt
  have hran : ((reached tx trace.steps n).arrive trace.steps n t).owners.size = n + 1 := by
    rw [size_owners_arrive, size_owners_reached tx (Nat.le_of_lt hlt)]
  have hexecute := moves_execute _ (arrive_ne_nil hopened n t) ht hran
  rw [← step_eq_execute hopened, ← Progress.reached_succ ht] at hexecute
  exact hexecute.trans (moves_closed_reached hlast hlt)

/-! ### Frames that ran no step -/

theorem mem_line_enterUnseen {i count id : Nat} (hid : id ∈ b.line) :
    id ∈ (b.enterUnseen i count).line := by
  induction count generalizing b with
  | zero => exact hid
  | succ count ih =>
    apply ih
    cases hopened : b.opened with
    | nil =>
      rw [line, hopened] at hid
      cases hid
    | cons top outer =>
      rw [line_enter hopened]
      exact List.mem_cons_of_mem _ hid

/-- A step at the depth of the innermost frame, or further inside, ends no frame. -/
theorem Aligned.mem_line {i depth : Nat} (h : Aligned steps i depth b b') {top : OpenFrame}
    {outer : List OpenFrame} (hopened : b.opened = top :: outer) (hle : top.depth ≤ depth) {id : Nat}
    (hid : id ∈ b.line) : id ∈ b'.line := by
  cases h with
  | level hcons hdepth => exact hid
  | halted hcons houter hdepth =>
    obtain ⟨rfl, rfl⟩ := List.cons.inj (hcons.symm.trans hopened)
    omega
  | jumped hcons hne hnot =>
    obtain ⟨rfl, rfl⟩ := List.cons.inj (hcons.symm.trans hopened)
    unfold realign
    rw [line_setDepth, if_neg (by omega)]
    exact mem_line_enterUnseen (b := b.record _) hid

end Progress

namespace CallTree

theorem makes_named_ofTrace (tx : Transaction) (trace : Trace) (r : Registry) {id i : Nat} {f : Frame}
    (hf : ((ofTrace tx trace).1.named r).1.frame? id = some f) (hcall : f.callStep = some i) :
    ∃ s, Progress.Makes tx trace.steps i s f.callType id := by
  obtain ⟨s, hs, hcalled⟩ := calledAt_named_ofTrace tx trace r hf i hcall
  rw [frame?_named_ofTrace] at hf
  obtain ⟨g, hg, rfl⟩ := Option.map_eq_some_iff.1 hf
  have hcall' := (sameCall_finalFrame tx trace r id g).callStep.symm.trans hcall
  obtain ⟨s', type, hmakes⟩ := Progress.makes_closed tx trace hg hcall'
  obtain rfl := Option.some.inj (hs.symm.trans hmakes.step)
  obtain rfl := OpKind.call.inj (hmakes.kind.symm.trans hcalled.kind)
  exact ⟨s, hmakes⟩

/-- A frame runs the steps at which it is open, or those inside it do. -/
theorem covers_of_mem_line (tx : Transaction) (trace : Trace) (r : Registry) {n id : Nat} {t : Step}
    {f : Frame} (hf : ((ofTrace tx trace).1.named r).1.frame? id = some f)
    (ht : trace.steps[n]? = some t) (hopened : (Progress.reached tx trace.steps n).opened ≠ [])
    (hmem : id ∈ ((Progress.reached tx trace.steps n).arrive trace.steps n t).line) : f.Covers n := by
  have hle : n ≤ trace.steps.size := Nat.le_of_lt (Array.getElem?_eq_some_iff.1 ht).1
  obtain ⟨top, outer, harrived⟩ :=
    Progress.arrived_reached ht (Progress.contiguous_reached tx hle) hopened
  have hextends := (Progress.moves_arrive_closed ht hopened).extends
  rw [harrived.coherent.arranged.mem_line_iff (Progress.head?_line harrived.opened)] at hmem
  exact covers_of_encloses tx trace r hf (hextends.owners harrived.owner) (hextends.encloses hmem)

/-- A frame runs the step after its call, or one inside it does, unless the caller does. -/
theorem covers_of_makes (tx : Transaction) (trace : Trace) (r : Registry) {i id : Nat} {s t : Step}
    {type : CallType} {f : Frame} (hf : ((ofTrace tx trace).1.named r).1.frame? id = some f)
    (hmakes : Progress.Makes tx trace.steps i s type id) (ht : trace.steps[i + 1]? = some t)
    (hdepth : t.depth ≠ s.depth) : f.Covers (i + 1) := by
  have hlt : i + 1 < trace.steps.size := (Array.getElem?_eq_some_iff.1 ht).1
  have hle : s.depth + 1 ≤ t.depth := by
    have hgoes := hmakes.goes
    rw [ht, Option.any_some, decide_eq_true_eq, not_or] at hgoes
    omega
  obtain ⟨outer, hopened⟩ := hmakes.opened_enter fun t' ht' => by
    obtain rfl := Option.some.inj (ht.symm.trans ht')
    exact hdepth
  have hne : (Progress.reached tx trace.steps (i + 1)).opened ≠ [] := hopened ▸ List.cons_ne_nil _ _
  -- The next step runs no further out than the frame, so it leaves the frame open.
  have haligned : Progress.Aligned trace.steps (i + 1) t.depth (Progress.reached tx trace.steps (i + 1))
      ((Progress.reached tx trace.steps (i + 1)).align trace.steps (i + 1) t.depth) :=
    Progress.aligned_align (Progress.contiguous_reached tx (Nat.le_of_lt hlt)) hne (i + 1) t.depth
  refine covers_of_mem_line tx trace r hf ht hne ?_
  rw [Progress.line, Progress.opened_arrive]
  exact haligned.mem_line hopened hle (Progress.line_of_opened hopened ▸ List.mem_cons_self)

/-- A frame without a last step ran no code, or its call is the last step of the trace. -/
theorem codeless_or_last (tx : Transaction) (trace : Trace) (r : Registry) {id : Nat} {f : Frame}
    (hf : ((ofTrace tx trace).1.named r).1.frame? id = some f) (hid : id ≠ 0) (hstop : f.stop = none) :
    f.IsCodeless trace.steps ∨ ∃ i, f.callStep = some i ∧ i + 1 = trace.steps.size := by
  have hcall := (sited_named_ofTrace tx trace r).stop_or_callStep hf (Nat.pos_of_ne_zero hid)
  rw [hstop, Option.none_or] at hcall
  obtain ⟨s, hmakes⟩ := makes_named_ofTrace tx trace r hf hcall
  cases ht : trace.steps[f.lastStep + 1]? with
  | none =>
    have hlt := (Array.getElem?_eq_some_iff.1 hmakes.step).1
    have hge := Array.getElem?_eq_none_iff.1 ht
    exact .inr ⟨f.lastStep, hcall, by omega⟩
  | some t =>
    by_cases hdepth : t.depth = s.depth
    · exact .inl ⟨_, s, t, hcall, hmakes.step, ht, hdepth⟩
    · obtain ⟨last, hlast, _⟩ := covers_of_makes tx trace r hf hmakes ht hdepth
      rw [hstop] at hlast
      cases hlast

end CallTree

end TxTrace

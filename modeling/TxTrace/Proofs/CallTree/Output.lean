import TxTrace.Proofs.CallTree.Creation
import TxTrace.Proofs.CallTree.Truncation
import TxTrace.Proofs.CallTree.Unknown
import TxTrace.Proofs.Trace.Memory

/-!
What frames return. A frame that has ended yields what its last step left, and nothing changes that
(`Progress.Yields`), or it awaits what the next step shows, which is taken from a step of its caller
(`Progress.Awaits.yields_arrive`). A frame that halted exceptionally returned nothing
(`Progress.emptied_closed`).
-/

namespace TxTrace

/-- What a terminal instruction returns: the region of memory that the two words on top of the stack
    delimit, or nothing. There is no answer if the region cannot be read. -/
def Step.payload? (s : Step) : Terminal → Option Bytes
  | .ret | .revert => do
    let offset ← s.stackTop 0
    let len ← s.stackTop 1
    s.slice? offset len
  | _ => some []

namespace Progress

variable {tx : Transaction} {trace : Trace} {steps : Array Step} {b b' : Progress}

theorem terminalOutput_eq_payload? (s : Step) (t : Terminal) : terminalOutput s t = s.payload? t := by
  cases t with
  | ret | revert =>
    unfold terminalOutput Step.payload? Step.stackTop
    rcases s.stack with _ | ⟨offset, _ | ⟨len, rest⟩⟩
    · rfl
    · rfl
    · exact s.readMemory_eq_slice? offset len
  | stop | invalid | selfDestruct => rfl

/-! ### Frames that have returned -/

section Yields

variable {id : Nat} {output : Bytes}

/-- The frame at `id` has ended and returned `output`, and no step will change that. -/
structure Yields (id : Nat) (output : Bytes) (b : Progress) : Prop where
  ended : id ∉ b.line
  frame : ∃ f, b.frames[id]? = some f ∧ f.output = output
  settled : ∀ {st : Settlement}, b.settlement = some st → st.id = id → st.needsOutput = false

theorem Yields.congr (h : Yields id output b) (hline : b'.line = b.line)
    (hframes : b'.frames[id]? = b.frames[id]?) (hsettlement : b'.settlement = b.settlement) :
    Yields id output b' := by
  constructor
  · rw [hline]
    exact h.ended
  · rw [hframes]
    exact h.frame
  · rw [hsettlement]
    exact h.settled

theorem Yields.ne_top (h : Yields id output b) {top : OpenFrame}
    {outer : List OpenFrame} (hopened : b.opened = top :: outer) : top.id ≠ id := by
  rintro rfl
  exact h.ended (line_of_opened hopened ▸ List.mem_cons_self)

theorem Yields.ne_size (h : Yields id output b) : id ≠ b.frames.size := by
  obtain ⟨f, hf, _⟩ := h.frame
  exact Nat.ne_of_lt (Array.getElem?_eq_some_iff.1 hf).1

theorem Yields.getElem?_add (h : Yields id output b) (hopened : b.opened ≠ [])
    (f : Frame) : (b.add f).frames[id]? = b.frames[id]? := by
  obtain ⟨top, outer, hcons⟩ := List.exists_cons_of_ne_nil hopened
  rw [getElem?_frames_add b f hcons, if_neg h.ne_size, if_neg (h.ne_top hcons)]

/-- What a step tells of the frame that has ended before it is not what another one returned. -/
theorem Yields.settle (h : Yields id output b) (s : Step) :
    Yields id output (b.settle s) := by
  obtain ⟨f, hf, houtput⟩ := h.frame
  constructor
  · rw [line_settle]
    exact h.ended
  · cases hst : b.settlement with
    | none =>
      rw [settle_of_none hst]
      exact h.frame
    | some st =>
      refine ⟨_, frames_settle hst s ▸ getElem?_modify_of_some hf, ?_⟩
      split
      · next hid =>
        have hknown := h.settled hst hid
        simp only [Frame.settle, hknown, houtput]
        rfl
      · exact houtput
  · rw [settlement_settle]
    intro st hst
    cases hst

theorem Yields.close (h : Yields id output b) (ending : Ending) :
    Yields id output (b.close steps ending) := by
  cases hopened : b.opened with
  | nil =>
    rw [close_of_nil ending hopened]
    exact h
  | cons top outer =>
    constructor
    · intro hid
      rw [line_close hopened] at hid
      exact h.ended (line_of_opened hopened ▸ List.mem_cons_of_mem _ hid)
    · rw [frames_close b hopened, Array.getElem?_modify, if_neg (h.ne_top hopened)]
      exact h.frame
    · intro st hst hid
      rw [settlement_close b hopened] at hst
      split at hst
      · exact h.settled hst hid
      · obtain rfl := Option.some.inj hst
        exact absurd hid (h.ne_top hopened)

theorem Yields.enter (h : Yields id output b) (hopened : b.opened ≠ [])
    (f : Frame) : Yields id output (b.enter f) := by
  obtain ⟨top, outer, hcons⟩ := List.exists_cons_of_ne_nil hopened
  constructor
  · rw [line_enter hcons, List.mem_cons, not_or]
    exact ⟨h.ne_size, h.ended⟩
  · rw [frames_enter, h.getElem?_add hopened]
    exact h.frame
  · rw [settlement_enter]
    exact h.settled

theorem Yields.codeless (h : Yields id output b) (hopened : b.opened ≠ [])
    (f : Frame) : Yields id output { b.add f with settlement := some ⟨b.frames.size, true⟩ } := by
  constructor
  · have hline : (b.add f).line = b.line := line_add b f
    exact fun hid => h.ended (hline ▸ hid)
  · have hframes := h.getElem?_add hopened f
    exact hframes ▸ h.frame
  · intro st hst hid
    obtain rfl := Option.some.inj hst
    exact absurd hid.symm h.ne_size

theorem Yields.log (h : Yields id output b) (hopened : b.opened ≠ []) (i : Nat)
    (s : Step) (topics : Nat) : Yields id output (b.log i s topics) := by
  obtain ⟨top, outer, hcons⟩ := List.exists_cons_of_ne_nil hopened
  unfold Progress.log
  split
  · exact h.congr rfl rfl rfl
  · refine h.congr rfl ?_ rfl
    rw [hcons, modify, Array.getElem?_modify]
    exact if_neg (h.ne_top hcons)

theorem Move.yields (hmove : Move steps b b') (h : Yields id output b) :
    Yields id output b' := by
  cases hmove with
  | record a => exact h.congr rfl rfl rfl
  | close hends => exact h.close _
  | enter hopened hbegins => exact h.enter hopened _
  | codeless hopened hbegins => exact h.codeless hopened _
  | setDepth depth =>
    exact h.congr (line_setDepth b depth) (by rw [frames_setDepth]) (settlement_setDepth b depth)
  | settle hopened hs => exact h.settle _
  | own hopened => exact h.congr rfl rfl rfl
  | log hopened hs hran hkind => exact h.log hopened _ _ _
  | trail hclosed => exact h.congr rfl rfl rfl
  | finishEmpty failed hnone =>
    obtain ⟨f, hf, houtput⟩ := h.frame
    refine ⟨List.not_mem_nil, ⟨_, getElem?_modify_of_some hf, ?_⟩, h.settled⟩
    split
    · exact houtput
    · exact houtput

theorem Moves.yields (hmoves : Moves steps b b') (h : Yields id output b) :
    Yields id output b' :=
  hmoves.preserves (P := Yields id output) (fun hmove h => hmove.yields h) h

end Yields

/-- A frame that ends returns what is known at its end, if anything is, or if no frame is open after it. -/
theorem yields_close (hc : Coherent b) (hs : Stamped b) {top : OpenFrame} {outer : List OpenFrame}
    (hopened : b.opened = top :: outer) {ending : Ending} {output : Option Bytes}
    (houtput : ending.output = output) (hknown : outer = [] ∨ output.isSome) :
    Yields top.id (output.getD []) (b.close steps ending) := by
  subst houtput
  have hline := line_of_opened hopened
  have hlt : top.id < b.frames.size := hc.lt_size_of_mem_line (hline ▸ List.mem_cons_self)
  constructor
  · rw [line_close hopened]
    exact hc.arranged.not_mem_tail hline
  · rw [frames_close b hopened, Array.getElem?_modify, if_pos rfl, Array.getElem?_eq_getElem hlt]
    exact ⟨_, rfl, rfl⟩
  · intro st hst hid
    rw [settlement_close b hopened] at hst
    split at hst
    · -- The frame that the next step tells of is not open.
      rcases (hs.settled hst).2 with hnil | hout
      · rw [hopened] at hnil
        cases hnil
      · exact absurd (hid ▸ hline ▸ List.mem_cons_self) hout
    · next houter =>
      obtain rfl := Option.some.inj hst
      have hsome := hknown.resolve_left (by simpa using houter)
      simpa using hsome

/-! ### Frames of which the next step tells -/

/-- The frame at `id` has just ended, and what it returned is to be found with the next step. -/
structure Awaits (id : Nat) (b : Progress) : Prop where
  ended : id ∉ b.line
  frame : ∃ f, b.frames[id]? = some f ∧ f.output = []
  settlement : b.settlement = some ⟨id, true⟩

theorem awaits_close (hc : Coherent b) {top : OpenFrame} {outer : List OpenFrame}
    (hopened : b.opened = top :: outer) (houter : outer ≠ []) {ending : Ending}
    (hnone : ending.output = none) : Awaits top.id (b.close steps ending) := by
  have hline := line_of_opened hopened
  have hlt : top.id < b.frames.size := hc.lt_size_of_mem_line (hline ▸ List.mem_cons_self)
  constructor
  · rw [line_close hopened]
    exact hc.arranged.not_mem_tail hline
  · rw [frames_close b hopened, Array.getElem?_modify, if_pos rfl, Array.getElem?_eq_getElem hlt]
    refine ⟨_, rfl, ?_⟩
    simp only [Frame.finish, hnone, Option.getD_none]
  · rw [settlement_close b hopened, if_neg (by simpa using houter), hnone]
    rfl

theorem Makes.awaits_add {i id : Nat} {s t : Step} {type : CallType}
    (h : Makes tx trace.steps i s type id) (ht : trace.steps[i + 1]? = some t) (hdepth : t.depth = s.depth) :
    Awaits id (reached tx trace.steps (i + 1)) := by
  obtain ⟨_, _, _, hf⟩ := h.exists_frame
  refine ⟨h.not_mem_line_add ht hdepth, ⟨_, hf, rfl⟩, ?_⟩
  rw [h.reached_eq_add ht hdepth]

/-- The frame returned what the next step shows. -/
theorem Awaits.settle {id : Nat} (h : Awaits id b) (t : Step) :
    Yields id (t.returnData.getD []) (b.settle t) := by
  obtain ⟨f, hf, houtput⟩ := h.frame
  constructor
  · rw [line_settle]
    exact h.ended
  · rw [frames_settle h.settlement, getElem?_modify_of_some hf, if_pos rfl]
    refine ⟨_, rfl, ?_⟩
    simp only [Frame.settle, if_true, houtput]
  · rw [settlement_settle]
    intro st hst
    cases hst

theorem line_closeAbove (i depth : Nat) (b : Progress) :
    (b.closeAbove steps i depth).line <:+ b.line := by
  fun_induction closeAbove steps i depth b with
  | case1 b top next rest hopened hlt ih =>
    refine ih.trans ?_
    rw [line_close hopened, line_of_opened hopened]
    exact List.suffix_cons _ _
  | case2 => exact List.suffix_refl _
  | case3 => exact List.suffix_refl _

/-- A step that turns out to be one of the innermost open frame neither ends nor opens one. -/
theorem Aligned.same_of_line {i depth : Nat} (haligned : Aligned steps i depth b b') (hc : Coherent b)
    (hmax : depth ≤ maxCallDepth + 1) {p : Nat} {outer rest : List Nat} (hline : b.line = p :: outer)
    (hline' : b'.line = p :: rest) :
    b'.line = b.line ∧ b'.frames = b.frames ∧ b'.settlement = b.settlement := by
  have hnot : p ∉ outer := hc.arranged.not_mem_tail hline
  have hmem : p ∈ b'.line := hline' ▸ List.mem_cons_self
  cases haligned with
  | level => exact ⟨rfl, rfl, rfl⟩
  | halted hopened =>
    rw [line_of_opened hopened] at hline
    rw [line_close hopened] at hmem
    obtain ⟨rfl, rfl⟩ := List.cons.inj hline
    exact absurd hmem hnot
  | @jumped top around hopened hne =>
    have hcons := hline
    rw [line_of_opened hopened] at hcons
    obtain ⟨rfl, rfl⟩ := List.cons.inj hcons
    unfold realign at hmem ⊢
    rw [line_setDepth] at hmem ⊢
    rw [frames_setDepth, settlement_setDepth]
    split at hmem
    · next hlt =>
      rw [if_pos hlt]
      cases around with
      | nil =>
        rw [closeAbove_of_not_lt (b := b.record _) fun hcons => by simp [hopened] at hcons]
        exact ⟨rfl, rfl, rfl⟩
      | cons next around =>
        -- The innermost frame is closed first, and is not open again.
        rw [closeAbove_of_lt (b := b.record _) hopened hlt] at hmem
        have hmem' := (line_closeAbove i depth _).subset hmem
        rw [line_close (b := b.record _) hopened] at hmem'
        exact absurd hmem' hnot
    · next hge =>
      -- The step runs in a frame that is opened for it.
      have hopened' : (b.record (.depthJump i top.depth depth)).opened ≠ [] := by
        rw [opened_record, hopened]
        exact List.cons_ne_nil _ _
      have hcount : min depth (maxCallDepth + 1) - top.depth =
          min depth (maxCallDepth + 1) - top.depth - 1 + 1 := by omega
      obtain ⟨new, inner, hnew, hsize⟩ := line_enterUnseen hopened' i
        (min depth (maxCallDepth + 1) - top.depth - 1)
      unfold realign at hline'
      rw [line_setDepth, if_neg hge, hcount, hnew] at hline'
      obtain ⟨rfl, _⟩ := List.cons.inj hline'
      have hlt := hc.lt_size_of_mem_line (line_of_opened hopened ▸ List.mem_cons_self)
      exact absurd hlt (Nat.not_lt.2 hsize)

/-- A frame whose caller runs the next step returned what that step shows. -/
theorem Awaits.yields_arrive {n id p : Nat} {t : Step} {outer : List Nat}
    (h : Awaits id (reached tx trace.steps n)) (ht : trace.steps[n]? = some t)
    (hline : (reached tx trace.steps n).line = p :: outer) (howner : (closed tx trace).owners[n]? = some p) :
    Yields id (t.returnData.getD []) ((reached tx trace.steps n).arrive trace.steps n t) := by
  have hle : n ≤ trace.steps.size := Nat.le_of_lt (Array.getElem?_eq_some_iff.1 ht).1
  have hopened : (reached tx trace.steps n).opened ≠ [] := by
    intro hnil
    rw [line, hnil] at hline
    cases hline
  have hb := contiguous_reached tx hle
  obtain ⟨top, around, harrived⟩ := arrived_reached ht hb hopened
  have htop := (moves_arrive_closed ht hopened).extends.owners harrived.owner
  obtain rfl := Option.some.inj (htop.symm.trans howner)
  have haligned : Aligned trace.steps n t.depth (reached tx trace.steps n)
      ((reached tx trace.steps n).align trace.steps n t.depth) := aligned_align hb hopened n t.depth
  have hline' : ((reached tx trace.steps n).align trace.steps n t.depth).line =
      top.id :: around.map (·.id) := by
    rw [line, ← opened_arrive]
    exact line_of_opened harrived.opened
  obtain ⟨hline, hframes, hsettlement⟩ := haligned.same_of_line (coherent_reached tx hle)
    (trace.depth_le t (Array.mem_of_getElem? ht)) hline hline'
  have hawaits : Awaits id ((reached tx trace.steps n).align trace.steps n t.depth) := by
    constructor
    · rw [hline]
      exact h.ended
    · rw [hframes]
      exact h.frame
    · rw [hsettlement]
      exact h.settlement
  exact (hawaits.settle t).congr rfl rfl rfl

/-- The step after a call that ran no code shows what it returned. -/
theorem Makes.yields_closed {i id : Nat} {s t : Step} {type : CallType}
    (h : Makes tx trace.steps i s type id) (ht : trace.steps[i + 1]? = some t) (hdepth : t.depth = s.depth) :
    Yields id (t.returnData.getD []) (closed tx trace) := by
  obtain ⟨caller, outer, hopened, hcaller⟩ := h.opened_add ht hdepth
  have hne : (reached tx trace.steps (i + 1)).opened ≠ [] := hopened ▸ List.cons_ne_nil _ _
  have hlevel : (reached tx trace.steps (i + 1)).align trace.steps (i + 1) t.depth =
      reached tx trace.steps (i + 1) := align_of_depth (by rw [hopened, hdepth, ← hcaller]) _
  have harrive : Yields id (t.returnData.getD [])
      ((reached tx trace.steps (i + 1)).arrive trace.steps (i + 1) t) := by
    rw [arrive, hlevel]
    exact ((h.awaits_add ht hdepth).settle t).congr rfl rfl rfl
  exact (moves_arrive_closed ht hne).yields harrive

/-! ### Terminal instructions -/

section Terminate

variable {i : Nat} {s : Step} {t : Terminal} {top : OpenFrame} {outer : List OpenFrame}

theorem reached_succ_of_terminal (hs : steps[i]? = some s) (hopened : (reached tx steps i).opened ≠ [])
    (hkind : s.kind = .terminal t) :
    reached tx steps (i + 1) = ((reached tx steps i).arrive steps i s).terminate steps i s t := by
  rw [reached_succ hs, step_eq_execute hopened, execute, hkind]

theorem stamped_arrive (hs : steps[i]? = some s) (hopened : (reached tx steps i).opened ≠ []) :
    Stamped ((reached tx steps i).arrive steps i s) := by
  have hle : i ≤ steps.size := Nat.le_of_lt (Array.getElem?_eq_some_iff.1 hs).1
  have hran := size_owners_reached tx hle
  have harrive := moves_arrive (reached tx steps i) hopened (by rw [hran]; exact hs)
  rw [hran] at harrive
  exact stamped_of_moves ((moves_reached (Nat.zero_le i) hle).trans harrive)

theorem Arrived.line_terminal (harrived : Arrived i s top outer ((reached tx steps i).arrive steps i s))
    (hs : steps[i]? = some s) (hopened : (reached tx steps i).opened ≠ []) (hkind : s.kind = .terminal t) :
    (reached tx steps (i + 1)).line = outer.map (·.id) := by
  rw [reached_succ_of_terminal hs hopened hkind, Progress.terminate, line_close harrived.opened]

/-- What a terminal instruction returns is known at once if it can be read, or if no frame is open after
    it. -/
theorem Arrived.yields_terminal (harrived : Arrived i s top outer ((reached tx steps i).arrive steps i s))
    (hs : steps[i]? = some s) (hopened : (reached tx steps i).opened ≠ []) (hkind : s.kind = .terminal t)
    (hknown : outer = [] ∨ (s.payload? t).isSome) :
    Yields top.id ((s.payload? t).getD []) (reached tx steps (i + 1)) := by
  rw [reached_succ_of_terminal hs hopened hkind]
  exact yields_close harrived.coherent (stamped_arrive hs hopened) harrived.opened
    (terminalOutput_eq_payload? s t) hknown

/-- Else it is left to the next step. -/
theorem Arrived.awaits_terminal (harrived : Arrived i s top outer ((reached tx steps i).arrive steps i s))
    (hs : steps[i]? = some s) (hopened : (reached tx steps i).opened ≠ []) (hkind : s.kind = .terminal t)
    (houter : outer ≠ []) (hnone : s.payload? t = none) : Awaits top.id (reached tx steps (i + 1)) := by
  rw [← terminalOutput_eq_payload?] at hnone
  rw [reached_succ_of_terminal hs hopened hkind]
  exact awaits_close harrived.coherent harrived.opened houter hnone

end Terminate

/-- Nothing is around the outermost frame. -/
theorem Coherent.outer_eq_nil_iff (hc : Coherent b) {top : OpenFrame} {outer : List OpenFrame}
    (hopened : b.opened = top :: outer) : outer = [] ↔ top.id = 0 := by
  have hline := line_of_opened hopened
  constructor
  · rintro rfl
    exact hc.arranged.bottom top.id (by simp [hline])
  · intro htop
    cases outer with
    | nil => rfl
    | cons next rest =>
      have hchain := hc.arranged.chain
      rw [hline, List.map_cons, List.isChain_cons_cons] at hchain
      have hlt := hc.arranged.lt_of_calls hchain.1
      omega

/-- If no frame is open, a terminal instruction of the outermost one came before. -/
theorem exists_terminal_of_closed {n : Nat} (hn : n ≤ trace.steps.size)
    (hclosed : (reached tx trace.steps n).opened = []) :
    ∃ k < n, ∃ s, trace.steps[k]? = some s ∧ (closed tx trace).owners[k]? = some 0 ∧ s.IsTerminal := by
  obtain ⟨k, hk, hbefore, hafter, _⟩ := exists_ended hn hclosed
  have hlt : k < trace.steps.size := Nat.lt_of_lt_of_le hk hn
  have hs : trace.steps[k]? = some trace.steps[k] := Array.getElem?_eq_getElem hlt
  obtain ⟨last, hlast⟩ := exists_back?_eq_some hlt
  cases standing_reached tx hs hbefore with
  | inside hcons => simp [hafter] at hcons
  | entered hcons => simp [hafter] at hcons
  | left hcons => simp [hafter] at hcons
  | ended _ howner _ _ _ hkind =>
    exact ⟨k, hk, _, hs, (extends_closed tx hlast hlt).owners howner, hkind⟩

/-- The outermost frame is not known to return anything if it is open when the last step has run. -/
theorem output_root_closed {last : Step} (hlast : trace.steps.back? = some last)
    (hopened : (reached tx trace.steps trace.steps.size).opened ≠ []) {f : Frame}
    (hf : (closed tx trace).frames[0]? = some f) : f.output = [] := by
  rw [closed_eq_atEnd hlast, finishOpen] at hf
  by_cases hend : (atEnd tx trace).opened = []
  · rw [if_pos (by simp [hend])] at hf
    rcases finishError_eq (reached tx trace.steps trace.steps.size) with heq | ⟨error, heq⟩
    · rw [atEnd, heq] at hend
      exact absurd hend hopened
    · obtain ⟨top, outer, hcons⟩ := List.exists_cons_of_ne_nil hopened
      rw [atEnd, heq] at hf hend
      rw [opened_close, hcons, List.tail_cons] at hend
      have htop := ((coherent_reached tx (Nat.le_refl _)).outer_eq_nil_iff hcons).1 hend
      rw [frames_close _ hcons, Array.getElem?_modify, if_pos htop] at hf
      obtain ⟨g, _, rfl⟩ := Option.map_eq_some_iff.1 hf
      rfl
  · rw [if_neg (by simpa [List.isEmpty_iff] using hend)] at hf
    exact (unknown_closeAll ((coherent_atEnd tx trace).zero_mem_line hend) hf).2

theorem output_root_of_isEmpty (hempty : trace.steps.isEmpty) {f : Frame}
    (hf : (closed tx trace).frames[0]? = some f) : f.output = [] := by
  have hnil : trace.steps.toList = [] := by simpa using hempty
  have hclosed : closed tx trace = (ofTransaction tx trace.steps).finishEmpty trace.failed := by
    rw [closed, hnil, run, if_pos hempty]
    rfl
  obtain ⟨status, hframes⟩ := (ofTransaction tx trace.steps).frames_finishEmpty trace.failed
  rw [hclosed, hframes, Array.getElem?_modify, if_pos rfl] at hf
  obtain ⟨g, hg, rfl⟩ := Option.map_eq_some_iff.1 hf
  obtain ⟨_, rfl⟩ := Array.getElem?_eq_some_iff.1 hg
  rfl

/-! ### Exceptional halts -/

/-- A frame that halted exceptionally returned nothing, unless it ran no code. -/
structure Emptied (steps : Array Step) (b : Progress) : Prop where
  yields : ∀ {id : Nat} {f : Frame}, id ≠ 0 → b.frames[id]? = some f → f.status = .invalid →
    ¬ f.IsCodeless steps → Yields id [] b

/-- Frames end as they did, and others did not halt, ran no code or returned nothing. -/
theorem Emptied.of_frames (h : Emptied steps b)
    (hyields : ∀ {id : Nat}, Yields id [] b → Yields id [] b')
    (hframes : ∀ {id : Nat} {f' : Frame}, id ≠ 0 → b'.frames[id]? = some f' →
      (∃ f, b.frames[id]? = some f ∧ f.SameStatus f') ∨ f'.status ≠ .invalid ∨ f'.IsCodeless steps ∨
        Yields id [] b') : Emptied steps b' := by
  constructor
  intro id f' hid hf' hstatus hcode
  rcases hframes hid hf' with ⟨f, hf, hsame⟩ | hother | hcodeless | hyields'
  · refine hyields (h.yields hid hf (hsame.status.symm.trans hstatus) fun hcodeless => hcode ?_)
    unfold Frame.IsCodeless at hcodeless ⊢
    rw [hsame.callStep]
    exact hcodeless
  · exact absurd hstatus hother
  · exact absurd hcodeless hcode
  · exact hyields'

theorem Emptied.congr (h : Emptied steps b) (hframes : b'.frames = b.frames) (hline : b'.line = b.line)
    (hsettlement : b'.settlement = b.settlement) : Emptied steps b' :=
  h.of_frames (fun hyields => hyields.congr hline (by rw [hframes]) hsettlement)
    fun _ hf' => .inl ⟨_, hframes ▸ hf', .refl _⟩

/-- A frame that is known to halt is known to return nothing. -/
theorem Ends.output_of_invalid {ending : Ending} (hends : Ends steps b ending)
    (hstatus : ending.status = .invalid) : ending.output = some [] := by
  cases hends with
  | halted => rfl
  | lost => cases hstatus
  | @terminated i s t hs hran hkind =>
    cases t with
    | invalid => rfl
    | ret | stop | revert | selfDestruct => cases hstatus
  | failed => rfl

theorem Emptied.close (h : Emptied steps b) (hc : Coherent b) (hs : Stamped b) {ending : Ending}
    (hends : Ends steps b ending) : Emptied steps (b.close steps ending) := by
  cases hopened : b.opened with
  | nil =>
    rw [close_of_nil ending hopened]
    exact h
  | cons top outer =>
    refine h.of_frames (fun hyields => hyields.close ending) fun {id f'} _ hf' => ?_
    rw [frames_close b hopened, Array.getElem?_modify] at hf'
    split at hf'
    · next hid =>
      obtain ⟨f, _, rfl⟩ := Option.map_eq_some_iff.1 hf'
      by_cases hstatus : ending.status = .invalid
      · have houtput := hends.output_of_invalid hstatus
        exact .inr (.inr (.inr (hid ▸ yields_close hc hs hopened houtput (.inr rfl))))
      · exact .inr (.inl hstatus)
    · exact .inl ⟨_, hf', .refl _⟩

theorem Emptied.closeAbove (h : Emptied steps b) (hc : Coherent b) (hs : Stamped b) (depth : Nat) :
    Emptied steps (b.closeAbove steps b.owners.size depth) := by
  suffices hall : Coherent (b.closeAbove steps b.owners.size depth) ∧
      Stamped (b.closeAbove steps b.owners.size depth) ∧
      Emptied steps (b.closeAbove steps b.owners.size depth) from hall.2.2
  apply closeAbove_preserves (P := fun b => Coherent b ∧ Stamped b ∧ Emptied steps b)
  · rintro b ending hends ⟨hc, hs, h⟩
    exact ⟨hc.close hends.stop_eq, hs.close hc ending, h.close hc hs hends⟩
  · exact ⟨hc, hs, h⟩

theorem Emptied.enterUnseen (h : Emptied steps b) (hopened : b.opened ≠ []) (i count : Nat) :
    Emptied steps (b.enterUnseen i count) := by
  induction count generalizing b with
  | zero => exact h
  | succ count ih =>
    obtain ⟨top, outer, hcons⟩ := List.exists_cons_of_ne_nil hopened
    refine ih (h.of_frames (fun hyields => hyields.enter hopened _) fun _ hf' => ?_)
      (enter_ne_nil b _ hopened)
    rw [frames_enter] at hf'
    rcases exists_of_frames_add hcons hf' Frame.SameStatus.refl fun _ _ => ⟨rfl, rfl, rfl⟩ with
      hold | ⟨_, rfl⟩
    · exact .inl hold
    · exact .inr (.inl (by simp))

theorem Emptied.align (h : Emptied steps b) (hb : Contiguous b) (hc : Coherent b) (hs : Stamped b)
    (hopened : b.opened ≠ []) {t : Step} (ht : steps[b.owners.size]? = some t) :
    Emptied steps (b.align steps b.owners.size t.depth) := by
  have haligned : Aligned steps b.owners.size t.depth b (b.align steps b.owners.size t.depth) :=
    aligned_align hb hopened _ _
  generalize b.align steps b.owners.size t.depth = b' at haligned
  cases haligned with
  | level => exact h
  | halted hcons houter hdepth => exact h.close hc hs (.halted ht hcons houter hdepth)
  | @jumped top =>
    have hrecord : Emptied steps (b.record (.depthJump b.owners.size top.depth t.depth)) :=
      h.congr rfl rfl rfl
    have hset {b : Progress} (hb : Emptied steps b) : Emptied steps (b.setDepth t.depth) :=
      hb.congr (frames_setDepth b _) (line_setDepth b _) (settlement_setDepth b _)
    unfold Progress.realign
    apply hset
    split
    · exact hrecord.closeAbove (hc.congr rfl rfl rfl rfl) (hs.of_eq rfl rfl rfl) _
    · exact hrecord.enterUnseen hopened _ _

theorem Emptied.execute (h : Emptied steps b) (hc : Coherent b) (hs : Stamped b) (hopened : b.opened ≠ [])
    {i : Nat} {s : Step} (hstep : steps[i]? = some s) (hran : b.owners.size = i + 1) :
    Emptied steps (b.execute steps i s) := by
  by_cases hterminal : s.IsTerminal
  · obtain ⟨t, hkind⟩ := hterminal
    rw [Progress.execute, hkind]
    exact h.close hc hs (.terminated hstep hran hkind)
  · obtain ⟨top, outer, hcons⟩ := List.exists_cons_of_ne_nil hopened
    refine h.of_frames (moves_execute b hopened hstep hran).yields fun _ hf' => ?_
    rcases exists_of_frames_execute hcons hstep hf' with hold | ⟨t, hkind, _⟩ | ⟨_, hunknown | hcodeless⟩
    · exact .inl hold
    · exact absurd ⟨t, hkind⟩ hterminal
    · exact .inr (.inl (by simp [hunknown]))
    · exact .inr (.inr (.inl hcodeless))

theorem emptied_reached (tx : Transaction) {n : Nat} (hn : n ≤ trace.steps.size) :
    Emptied trace.steps (reached tx trace.steps n) := by
  induction n with
  | zero =>
    constructor
    intro id f hid hf _
    have hlt := (Array.getElem?_eq_some_iff.1 hf).1
    simp only [reached_zero, ofTransaction, List.size_toArray, List.length_singleton] at hlt
    omega
  | succ n ih =>
    have hle := Nat.le_of_succ_le hn
    have hs : trace.steps[n]? = some trace.steps[n] := Array.getElem?_eq_getElem hn
    by_cases hopened : (reached tx trace.steps n).opened = []
    · rw [reached_succ hs, step_eq_trail hopened]
      exact (ih hle).congr rfl rfl rfl
    · have hran := size_owners_reached tx hle
      obtain ⟨top, outer, harrived⟩ := arrived_reached hs (contiguous_reached tx hle) hopened
      have halign : Emptied trace.steps
          ((reached tx trace.steps n).align trace.steps n trace.steps[n].depth) := by
        have halign := (ih hle).align (contiguous_reached tx hle) (coherent_reached tx hle)
          (stamped_of_moves (moves_reached (Nat.zero_le n) hle)) hopened (by rw [hran]; exact hs)
        rwa [hran] at halign
      have harrive : Emptied trace.steps ((reached tx trace.steps n).arrive trace.steps n trace.steps[n]) :=
        halign.of_frames (fun hyields => (hyields.settle _).congr rfl rfl rfl)
          fun _ hf' => .inl (sameStatus_of_settle hf')
      rw [reached_succ hs, step_eq_execute hopened]
      exact harrive.execute harrived.coherent (stamped_arrive hs hopened) (arrive_ne_nil hopened n _) hs
        (by rw [size_owners_arrive, hran])

theorem emptied_closed (tx : Transaction) (trace : Trace) : Emptied trace.steps (closed tx trace) := by
  suffices hall : Coherent (closed tx trace) ∧ Stamped (closed tx trace) ∧
      Emptied trace.steps (closed tx trace) from hall.2.2
  have hmoves : Moves trace.steps (reached tx trace.steps 0) (reached tx trace.steps trace.steps.size) :=
    moves_reached (Nat.zero_le _) (Nat.le_refl _)
  apply closed_preserves (P := fun b => Coherent b ∧ Stamped b ∧ Emptied trace.steps b)
  · exact ⟨coherent_reached tx (Nat.le_refl _), stamped_of_moves hmoves, emptied_reached tx (Nat.le_refl _)⟩
  · rintro b hnone ⟨hc, hs, h⟩
    have hmove : Move trace.steps b (b.finishEmpty trace.failed) := .finishEmpty b trace.failed hnone
    refine ⟨hmove.coherent hc, hmove.stamped hc hs, h.of_frames (fun hyields => hmove.yields hyields) ?_⟩
    intro id f' hid hf'
    obtain ⟨status, hframes⟩ := b.frames_finishEmpty trace.failed
    rw [hframes, Array.getElem?_modify, if_neg fun heq => hid heq.symm] at hf'
    exact .inl ⟨f', hf', .refl f'⟩
  · rintro b ending hends ⟨hc, hs, h⟩
    exact ⟨hc.close hends.stop_eq, hs.close hc ending, h.close hc hs hends⟩
  · rintro b a ⟨hc, hs, h⟩
    exact ⟨hc.congr rfl rfl rfl rfl, hs.of_eq rfl rfl rfl, h.congr rfl rfl rfl⟩

end Progress

end TxTrace

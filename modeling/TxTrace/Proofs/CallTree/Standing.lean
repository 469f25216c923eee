import TxTrace.Proofs.CallTree.Nesting
import TxTrace.Proofs.CallTree.Reached

/-!
Where a trace stands after each of its steps. The open frames run at depths one apart
(`Progress.Contiguous`), whatever the depths of the steps are, so a step can be brought to its depth
in three ways only (`Progress.Aligned`), and what is open after it depends on what it does
(`Progress.Standing`).
-/

namespace TxTrace.Progress

open Place

variable {tx : Transaction} {steps : Array Step} {b b' : Progress}

/-! ### Depths -/

/-- The open frames run at depths one apart. -/
def Contiguous (b : Progress) : Prop :=
  b.opened.IsChain fun inner outer => inner.depth = outer.depth + 1

theorem Contiguous.depth_eq (h : Contiguous b) {top next : OpenFrame} {rest : List OpenFrame}
    (hopened : b.opened = top :: next :: rest) : top.depth = next.depth + 1 := by
  unfold Contiguous at h
  rw [hopened] at h
  exact (List.isChain_cons_cons.1 h).1

theorem Contiguous.congr (h : Contiguous b) (hopened : b'.opened = b.opened) : Contiguous b' := by
  unfold Contiguous
  rw [hopened]
  exact h

theorem Contiguous.close (h : Contiguous b) (ending : Ending) :
    Contiguous (b.close steps ending) := by
  unfold Contiguous
  rw [opened_close]
  exact List.IsChain.tail h

theorem Contiguous.enter (h : Contiguous b) (f : Frame) : Contiguous (b.enter f) := by
  cases hopened : b.opened with
  | nil => exact h.congr (by simp [Progress.enter, hopened])
  | cons top outer =>
    unfold Contiguous at h ⊢
    rw [opened_enter b f hopened]
    rw [hopened] at h ⊢
    exact .cons_cons rfl h

theorem Contiguous.closeAbove (h : Contiguous b) (i depth : Nat) :
    Contiguous (b.closeAbove steps i depth) := by
  fun_induction Progress.closeAbove steps i depth b with
  | case1 b top next rest hopened hlt ih => exact ih (h.close _)
  | case2 => exact h
  | case3 => exact h

/-- Closing the frames above a depth ends at that depth, or at the outermost frame. -/
theorem opened_closeAbove (h : Contiguous b) {i depth : Nat} {top : OpenFrame}
    {outer : List OpenFrame} (hopened : b.opened = top :: outer) (hle : depth ≤ top.depth) :
    ∃ t rest, (b.closeAbove steps i depth).opened = t :: rest ∧ (t.depth = depth ∨ rest = []) := by
  fun_induction Progress.closeAbove steps i depth b generalizing top outer with
  | case1 b top' next rest hcons hlt ih =>
    have hnext := h.depth_eq hcons
    exact ih (h.close _) (by rw [opened_close, hcons]; rfl) (by omega)
  | case2 b top' next rest hcons hge =>
    obtain ⟨rfl, rfl⟩ := List.cons.inj (hcons.symm.trans hopened)
    exact ⟨_, _, hcons, .inl (by omega)⟩
  | case3 b hshort =>
    cases outer with
    | nil => exact ⟨top, [], hopened, .inr rfl⟩
    | cons next rest => exact absurd hopened (hshort top next rest)

theorem Contiguous.enterUnseen (h : Contiguous b) (i count : Nat) :
    Contiguous (b.enterUnseen i count) := by
  induction count generalizing b with
  | zero => exact h
  | succ count ih => exact ih (h.enter _)

theorem opened_enterUnseen (i count : Nat) {top : OpenFrame} {outer : List OpenFrame}
    (hopened : b.opened = top :: outer) :
    ∃ t rest, (b.enterUnseen i count).opened = t :: rest ∧ t.depth = top.depth + count := by
  induction count generalizing b top outer with
  | zero => exact ⟨top, outer, hopened, rfl⟩
  | succ count ih =>
    obtain ⟨t, rest, hrest, hdepth⟩ := ih (opened_enter b
      { parent := none, callType := .call, level := 0, start := i } hopened)
    refine ⟨t, rest, hrest, hdepth.trans ?_⟩
    show top.depth + 1 + count = top.depth + (count + 1)
    omega

theorem opened_setDepth {top : OpenFrame} {outer : List OpenFrame} (hopened : b.opened = top :: outer)
    (depth : Nat) : (b.setDepth depth).opened = { top with depth } :: outer := by
  unfold Progress.setDepth
  rw [hopened]

/-- A jump within the depths that calls can reach leads to the depth of the step. -/
theorem contiguous_realign (h : Contiguous b) {i depth : Nat} {top : OpenFrame}
    {outer : List OpenFrame} (hopened : b.opened = top :: outer) (hmax : depth ≤ maxCallDepth + 1) :
    Contiguous (b.realign steps i top.depth depth) ∧
      ∃ t rest, (b.realign steps i top.depth depth).opened = t :: rest ∧ t.depth = depth := by
  have hset {b : Progress} {t : OpenFrame} {rest : List OpenFrame} (hb : Contiguous b)
      (hrest : b.opened = t :: rest) (hdepth : t.depth = depth ∨ rest = []) :
      Contiguous (b.setDepth depth) ∧
        ∃ t rest, (b.setDepth depth).opened = t :: rest ∧ t.depth = depth := by
    have hopened' := opened_setDepth hrest depth
    refine ⟨?_, _, _, hopened', rfl⟩
    rcases hdepth with rfl | rfl
    · exact hb.congr (hopened'.trans hrest.symm)
    · unfold Contiguous
      rw [hopened']
      exact .singleton _
  unfold Progress.realign
  dsimp only
  split
  · next hlt =>
    obtain ⟨t, rest, hrest, hdepth⟩ := opened_closeAbove h hopened (Nat.le_of_lt hlt)
    exact hset (h.closeAbove i depth) hrest hdepth
  · next hge =>
    obtain ⟨t, rest, hrest, hdepth⟩ :=
      opened_enterUnseen i (min depth (maxCallDepth + 1) - top.depth) hopened
    exact hset (h.enterUnseen i _) hrest (.inl (by omega))

/-- How the open frames are brought to the depth of a step. -/
inductive Aligned (steps : Array Step) (i depth : Nat) (b : Progress) : Progress → Prop
  /-- The innermost frame has that depth. -/
  | level {top : OpenFrame} {outer : List OpenFrame} (hopened : b.opened = top :: outer)
      (hdepth : top.depth = depth) : Aligned steps i depth b b
  /-- The step runs one level above the innermost frame, which halted. -/
  | halted {top : OpenFrame} {outer : List OpenFrame} (hopened : b.opened = top :: outer)
      (houter : outer ≠ []) (hdepth : depth + 1 = top.depth) : Aligned steps i depth b
      (b.close steps ⟨before i, .invalid, some [], (before i).bind fun p => steps[p]?.bind (·.error)⟩)
  /-- The step runs anywhere else. -/
  | jumped {top : OpenFrame} {outer : List OpenFrame} (hopened : b.opened = top :: outer)
      (hne : depth ≠ top.depth) (hnot : ¬ (depth + 1 = top.depth ∧ outer ≠ [])) :
      Aligned steps i depth b
        ((b.record (.depthJump i top.depth depth)).realign steps i top.depth depth)

theorem align_of_halted {i depth : Nat} {top : OpenFrame} {outer : List OpenFrame}
    (hopened : b.opened = top :: outer) (hdepth : depth + 1 = top.depth) (houter : outer ≠ []) :
    b.align steps i depth = align steps i depth (b.close steps
      ⟨before i, .invalid, some [], (before i).bind fun p => steps[p]?.bind (·.error)⟩) := by
  have hne : depth ≠ top.depth := by omega
  rw [align]
  split
  · next hnil => simp [hopened] at hnil
  · next top' outer' hcons =>
    obtain ⟨rfl, rfl⟩ := List.cons.inj (hopened.symm.trans hcons)
    rw [if_neg hne, if_pos ⟨hdepth, houter⟩]

theorem align_of_jumped {i depth : Nat} {top : OpenFrame} {outer : List OpenFrame}
    (hopened : b.opened = top :: outer) (hne : depth ≠ top.depth)
    (hnot : ¬ (depth + 1 = top.depth ∧ outer ≠ [])) :
    b.align steps i depth =
      (b.record (.depthJump i top.depth depth)).realign steps i top.depth depth := by
  rw [align]
  split
  · next hnil => simp [hopened] at hnil
  · next top' outer' hcons =>
    obtain ⟨rfl, rfl⟩ := List.cons.inj (hopened.symm.trans hcons)
    rw [if_neg hne, if_neg hnot]

theorem aligned_align (h : Contiguous b) (hopened : b.opened ≠ []) (i depth : Nat) :
    Aligned steps i depth b (b.align steps i depth) := by
  obtain ⟨top, outer, hcons⟩ := List.exists_cons_of_ne_nil hopened
  by_cases hlevel : top.depth = depth
  · rw [align_of_depth (by rw [hcons, ← hlevel])]
    exact .level hcons hlevel
  · have hne : depth ≠ top.depth := fun heq => hlevel heq.symm
    by_cases hhalt : depth + 1 = top.depth ∧ outer ≠ []
    · obtain ⟨next, rest, rfl⟩ := List.exists_cons_of_ne_nil hhalt.2
      have hnext : next.depth = depth := by
        have hdepth := h.depth_eq hcons
        omega
      -- The caller runs at the depth of the step, so nothing else halted.
      rw [align_of_halted hcons hhalt.1 hhalt.2,
        align_of_depth (by rw [opened_close, hcons, List.tail_cons, ← hnext])]
      exact .halted hcons hhalt.2 hhalt.1
    · rw [align_of_jumped hcons hne hhalt]
      exact .jumped hcons hne hhalt

/-- The innermost frame then has the depth of the step. -/
theorem Aligned.contiguous {i depth : Nat} (h : Aligned steps i depth b b') (hb : Contiguous b)
    (hmax : depth ≤ maxCallDepth + 1) :
    Contiguous b' ∧ ∃ t rest, b'.opened = t :: rest ∧ t.depth = depth := by
  cases h with
  | level hopened hdepth => exact ⟨hb, _, _, hopened, hdepth⟩
  | @halted top outer hopened houter hdepth =>
    obtain ⟨next, rest, rfl⟩ := List.exists_cons_of_ne_nil houter
    have hnext := hb.depth_eq hopened
    exact ⟨hb.close _, next, rest, by rw [opened_close, hopened]; rfl, by omega⟩
  | @jumped top outer hopened hne hnot =>
    have hrecord : Contiguous (b.record (.depthJump i top.depth depth)) :=
      hb.congr (opened_record b _)
    exact contiguous_realign hrecord hopened hmax

/-! ### Steps -/

/-- The tree when the step at `i` has been given to its frame and has done nothing else. -/
def arrive (steps : Array Step) (i : Nat) (s : Step) (b : Progress) : Progress :=
  ((b.align steps i s.depth).settle s).own

theorem step_eq_execute (hopened : b.opened ≠ []) (i : Nat) (s : Step) :
    b.step steps i s = (b.arrive steps i s).execute steps i s := by
  unfold step
  rw [if_neg (by simpa [List.isEmpty_iff] using hopened)]
  rfl

theorem step_eq_trail (hclosed : b.opened = []) (i : Nat) (s : Step) :
    b.step steps i s = b.trail i := by
  unfold step
  rw [if_pos (by simpa [List.isEmpty_iff] using hclosed)]

theorem opened_arrive (b : Progress) (i : Nat) (s : Step) :
    (b.arrive steps i s).opened = (b.align steps i s.depth).opened :=
  opened_settle _ s

theorem size_owners_arrive (b : Progress) (i : Nat) (s : Step) :
    (b.arrive steps i s).owners.size = b.owners.size + 1 := by
  rw [arrive, size_owners_own, owners_settle, owners_align]

theorem arrive_ne_nil (hopened : b.opened ≠ []) (i : Nat) (s : Step) :
    (b.arrive steps i s).opened ≠ [] := by
  rw [opened_arrive]
  exact align_ne_nil hopened

theorem moves_arrive {s : Step} (b : Progress) (hopened : b.opened ≠ [])
    (hs : steps[b.owners.size]? = some s) : Moves steps b (b.arrive steps b.owners.size s) := by
  have hne : (b.align steps b.owners.size s.depth).opened ≠ [] := align_ne_nil hopened
  have hs' : steps[(b.align steps b.owners.size s.depth).owners.size]? = some s := by
    rw [owners_align]
    exact hs
  have hsettle := Move.settle _ hne hs'
  refine ((moves_align b hs).tail hsettle).tail (.own _ ?_)
  rw [opened_settle]
  exact hne

/-- The step runs in the innermost open frame. -/
structure Arrived (i : Nat) (s : Step) (top : OpenFrame) (outer : List OpenFrame) (b : Progress) :
    Prop where
  opened : b.opened = top :: outer
  depth : top.depth = s.depth
  owner : b.owners[i]? = some top.id
  contiguous : Contiguous b
  coherent : Coherent b

theorem arrived_arrive {s : Step} (hb : Contiguous b) (hc : Coherent b) (hopened : b.opened ≠ [])
    (hs : steps[b.owners.size]? = some s) (hmax : s.depth ≤ maxCallDepth + 1) :
    ∃ top outer, Arrived b.owners.size s top outer (b.arrive steps b.owners.size s) := by
  have haligned : Aligned steps b.owners.size s.depth b (b.align steps b.owners.size s.depth) :=
    aligned_align hb hopened _ _
  obtain ⟨hcontiguous, top, outer, hcons, hdepth⟩ := haligned.contiguous hb hmax
  have howner : (b.arrive steps b.owners.size s).owners[b.owners.size]? = some top.id := by
    have howners : (b.arrive steps b.owners.size s).owners = b.owners.push top.id := by
      simp [arrive, own, hcons, owners_align]
    rw [howners, Array.getElem?_push_size]
  have harrive : (b.arrive steps b.owners.size s).opened =
      (b.align steps b.owners.size s.depth).opened := opened_arrive b _ s
  exact ⟨top, outer, harrive.trans hcons, hdepth, howner, hcontiguous.congr harrive,
    (moves_arrive b hopened hs).preserves Move.coherent hc⟩

/-- What is open after the step `s` at `i`, which ran in a frame. -/
inductive Standing (steps : Array Step) (i : Nat) (s : Step) (b : Progress) : Prop
  /-- The step belongs to the innermost frame, which goes on. -/
  | inside {top : OpenFrame} {outer : List OpenFrame} (hopened : b.opened = top :: outer)
      (hdepth : top.depth = s.depth) (howner : b.owners[i]? = some top.id) (hkind : ¬ s.IsTerminal)
  /-- The step called the innermost frame, in which the next step runs or one deeper. -/
  | entered {top caller : OpenFrame} {outer : List OpenFrame}
      (hopened : b.opened = top :: caller :: outer) (hdepth : top.depth = s.depth + 1)
      (hnext : ∀ next, steps[i + 1]? = some next → s.depth < next.depth)
  /-- The step ended a frame that the innermost one had called. -/
  | left {caller : OpenFrame} {outer : List OpenFrame} {id : Nat} {f : Frame}
      (hopened : b.opened = caller :: outer) (hdepth : caller.depth + 1 = s.depth)
      (hkind : s.IsTerminal) (howner : b.owners[i]? = some id) (hf : b.frames[id]? = some f)
      (hparent : f.parent = some caller.id) (hlevel : f.level = b.opened.length)
  /-- The step ended the outermost frame. -/
  | ended {f : Frame} (hopened : b.opened = []) (howner : b.owners[i]? = some 0)
      (hf : b.frames[0]? = some f) (hstop : f.stop = some i) (hstatus : f.status = s.endStatus)
      (hkind : s.IsTerminal)

theorem Arrived.inside {i : Nat} {s : Step} {top : OpenFrame} {outer : List OpenFrame}
    (h : Arrived i s top outer b) (hkind : ¬ s.IsTerminal) (hopened : b'.opened = b.opened)
    (howners : b'.owners = b.owners) : Contiguous b' ∧ Standing steps i s b' := by
  refine ⟨h.contiguous.congr hopened, .inside (hopened.trans h.opened) h.depth ?_ hkind⟩
  rw [howners]
  exact h.owner

theorem Arrived.call {i : Nat} {s : Step} {top : OpenFrame} {outer : List OpenFrame}
    (h : Arrived i s top outer b) {type : CallType} (hkind : s.kind = .call type) :
    Contiguous (b.call steps i s type) ∧ Standing steps i s (b.call steps i s type) := by
  have hterminal : ¬ s.IsTerminal := by
    rintro ⟨t, ht⟩
    rw [hkind] at ht
    cases ht
  by_cases hhalts : s.error.isSome ∨ (steps[i + 1]?).any (·.depth < s.depth)
  · rw [call_eq_self hhalts]
    exact h.inside hterminal rfl rfl
  · cases hnext : (steps[i + 1]?).filter (·.depth = s.depth) with
    | some next =>
      have hopened : (b.call steps i s type).opened = b.opened := by
        rw [call_eq_add hhalts hnext]
        simp
      exact h.inside hterminal hopened (owners_call i s type b)
    | none =>
      have hchecked : Contiguous (b.checkOperands i s type) :=
        h.contiguous.congr (opened_checkOperands i s type b)
      have hcons := (opened_checkOperands i s type b).trans h.opened
      have hopened := opened_enter _ (b.calledFrame i s type) hcons
      rw [hcons] at hopened
      rw [call_eq_enter hhalts hnext]
      refine ⟨hchecked.enter _, .entered hopened (congrArg (· + 1) h.depth) fun next hsome => ?_⟩
      rw [hsome, Option.any_some, decide_eq_true_eq, not_or] at hhalts
      simp only [hsome, Option.filter_eq_none_iff, Option.some.injEq, forall_eq',
        decide_eq_true_eq] at hnext
      omega

theorem Arrived.terminate {i : Nat} {s : Step} {top : OpenFrame} {outer : List OpenFrame}
    (h : Arrived i s top outer b) {t : Terminal} (hkind : s.kind = .terminal t) :
    Contiguous (b.terminate steps i s t) ∧ Standing steps i s (b.terminate steps i s t) := by
  refine ⟨h.contiguous.close _, ?_⟩
  have hopened : (b.terminate steps i s t).opened = outer := by
    rw [Progress.terminate, opened_close, h.opened, List.tail_cons]
  have howner : (b.terminate steps i s t).owners[i]? = some top.id := by
    rw [Progress.terminate, owners_close]
    exact h.owner
  have hline := line_of_opened h.opened
  have hlt : top.id < b.frames.size := h.coherent.lt_size_of_mem_line (hline ▸ List.mem_cons_self)
  obtain ⟨f, hf⟩ : ∃ f, b.frames[top.id]? = some f := ⟨_, Array.getElem?_eq_getElem hlt⟩
  have hplace : b.places[top.id]? = some f.place := by simp [places, hf]
  obtain ⟨f', hf', hparent, hlevel, hstop, hstatus⟩ :
      ∃ f', (b.terminate steps i s t).frames[top.id]? = some f' ∧ f'.parent = f.parent ∧
        f'.level = f.level ∧ f'.stop = (some i).filter (f.start ≤ ·) ∧ f'.status = s.endStatus := by
    rw [Progress.terminate, frames_close b h.opened, Array.getElem?_modify, if_pos rfl, hf,
      Step.endStatus_of_kind hkind]
    exact ⟨_, rfl, rfl, rfl, rfl, rfl⟩
  cases outer with
  | nil =>
    have hzero : top.id = 0 := h.coherent.arranged.bottom top.id (by simp [hline])
    have hstart : f.start = 0 := h.coherent.ranged.root_start (hzero ▸ hplace)
    rw [hzero] at howner hf'
    refine .ended hopened howner hf' ?_ hstatus ⟨t, hkind⟩
    simp [hstop, hstart]
  | cons caller outer =>
    have hcaller : f.parent = some caller.id := h.coherent.parent_eq_some hline hf
    have hdepth : caller.depth + 1 = s.depth := by
      rw [← h.depth, h.contiguous.depth_eq h.opened]
    have hopen : f.level = (caller :: outer).length := by
      have hlevel := h.coherent.arranged.level_top hline hplace
      rwa [List.length_map] at hlevel
    refine .left hopened hdepth ⟨t, hkind⟩ howner hf' (hparent.trans hcaller) ?_
    rw [hlevel, hopen, hopened]

theorem Arrived.execute {i : Nat} {s : Step} {top : OpenFrame} {outer : List OpenFrame}
    (h : Arrived i s top outer b) :
    Contiguous (b.execute steps i s) ∧ Standing steps i s (b.execute steps i s) := by
  unfold Progress.execute
  split
  · next type hkind => exact h.call hkind
  · next t hkind => exact h.terminate hkind
  · next topics hkind =>
    exact h.inside (by simp [Step.IsTerminal, hkind]) (opened_log b i s topics) (owners_log b i s topics)
  · next hkind => exact h.inside (by simp [Step.IsTerminal, hkind]) rfl rfl

theorem contiguous_ofTransaction (tx : Transaction) (steps : Array Step) :
    Contiguous (ofTransaction tx steps) :=
  .singleton _

/-- Once the outermost frame has ended, steps only trail. -/
theorem reached_of_closed {m n : Nat} (hmn : m ≤ n) (hn : n ≤ steps.size)
    (hclosed : (reached tx steps m).opened = []) :
    (reached tx steps n).opened = [] ∧ (reached tx steps n).frames = (reached tx steps m).frames ∧
      (reached tx steps n).anomalies = (reached tx steps m).anomalies := by
  induction n, hmn using Nat.le_induction with
  | base => exact ⟨hclosed, rfl, rfl⟩
  | succ n hmn ih =>
    have h := ih (Nat.le_of_succ_le hn)
    rw [reached_succ (Array.getElem?_eq_getElem hn), step_eq_trail h.1]
    exact h

/-- Where frames are open, they were open before. -/
theorem reached_ne_nil_of_le {m n : Nat} (hmn : m ≤ n) (hn : n ≤ steps.size)
    (hopened : (reached tx steps n).opened ≠ []) : (reached tx steps m).opened ≠ [] :=
  fun hclosed => hopened (reached_of_closed hmn hn hclosed).1

/-- The step at `i` runs in a frame, if frames were open before it. -/
theorem arrived_reached {trace : Trace} {i : Nat} {s : Step} (hs : trace.steps[i]? = some s)
    (hb : Contiguous (reached tx trace.steps i)) (hopened : (reached tx trace.steps i).opened ≠ []) :
    ∃ top outer, Arrived i s top outer ((reached tx trace.steps i).arrive trace.steps i s) := by
  have hle : i ≤ trace.steps.size := Nat.le_of_lt (Array.getElem?_eq_some_iff.1 hs).1
  have hran := size_owners_reached tx hle
  have harrived := arrived_arrive hb (coherent_reached tx hle) hopened (by rw [hran]; exact hs)
    (trace.depth_le s (Array.mem_of_getElem? hs))
  rwa [hran] at harrived

/-- Where a trace stands after the step at `i`, if frames were open before it. -/
theorem standing_step {trace : Trace} {i : Nat} {s : Step} (hs : trace.steps[i]? = some s)
    (hb : Contiguous (reached tx trace.steps i)) (hopened : (reached tx trace.steps i).opened ≠ []) :
    Contiguous (reached tx trace.steps (i + 1)) ∧
      Standing trace.steps i s (reached tx trace.steps (i + 1)) := by
  obtain ⟨top, outer, harrived⟩ := arrived_reached hs hb hopened
  rw [reached_succ hs, step_eq_execute hopened]
  exact harrived.execute

theorem contiguous_reached (tx : Transaction) {trace : Trace} {n : Nat} (hn : n ≤ trace.steps.size) :
    Contiguous (reached tx trace.steps n) := by
  induction n with
  | zero => exact contiguous_ofTransaction tx trace.steps
  | succ n ih =>
    have hb := ih (Nat.le_of_succ_le hn)
    by_cases hopened : (reached tx trace.steps n).opened = []
    · exact hb.congr ((reached_of_closed (Nat.le_succ n) hn hopened).1.trans hopened.symm)
    · exact (standing_step (Array.getElem?_eq_getElem hn) hb hopened).1

theorem standing_reached (tx : Transaction) {trace : Trace} {i : Nat} {s : Step}
    (hs : trace.steps[i]? = some s) (hopened : (reached tx trace.steps i).opened ≠ []) :
    Standing trace.steps i s (reached tx trace.steps (i + 1)) :=
  have hle := Nat.le_of_lt (Array.getElem?_eq_some_iff.1 hs).1
  (standing_step hs (contiguous_reached tx hle) hopened).2

/-! ### Trailing steps -/

theorem trailing_closeAbove (i depth : Nat) (b : Progress) :
    (b.closeAbove steps i depth).trailing = b.trailing := by
  fun_induction Progress.closeAbove steps i depth b with
  | case1 b top next rest hopened hlt ih => rw [ih, trailing_close]
  | case2 => rfl
  | case3 => rfl

theorem trailing_enterUnseen (i count : Nat) (b : Progress) :
    (b.enterUnseen i count).trailing = b.trailing := by
  induction count generalizing b with
  | zero => rfl
  | succ count ih => rw [Progress.enterUnseen, ih, trailing_enter]

theorem trailing_align (i depth : Nat) (b : Progress) :
    (b.align steps i depth).trailing = b.trailing := by
  fun_induction Progress.align steps i depth b with
  | case1 => rfl
  | case2 => rfl
  | case3 b top rest hopened hne hhalt error ih => rw [ih, trailing_close]
  | case4 b top rest hopened hne hhalt =>
    unfold Progress.realign
    rw [trailing_setDepth]
    split
    · exact trailing_closeAbove i depth _
    · exact trailing_enterUnseen i _ _

theorem trailing_execute (i : Nat) (s : Step) (b : Progress) :
    (b.execute steps i s).trailing = b.trailing := by
  have hcheck (type : CallType) : (b.checkOperands i s type).trailing = b.trailing := by
    unfold checkOperands
    split <;> rfl
  unfold Progress.execute
  split
  · next type _ =>
    by_cases hhalts : s.error.isSome ∨ (steps[i + 1]?).any (·.depth < s.depth)
    · rw [call_eq_self hhalts]
    · cases hnext : (steps[i + 1]?).filter (·.depth = s.depth) with
      | some next =>
        rw [call_eq_add hhalts hnext]
        exact (trailing_add _ _).trans (hcheck type)
      | none => rw [call_eq_enter hhalts hnext, trailing_enter, hcheck]
  · exact trailing_close b _
  · exact trailing_log b i s _
  · rfl

/-- If no frame is open after some steps, one of them ended the outermost frame, and those after it
    trail. -/
theorem exists_ended {trace : Trace} {n : Nat} (hn : n ≤ trace.steps.size)
    (hclosed : (reached tx trace.steps n).opened = []) :
    ∃ k < n, (reached tx trace.steps k).opened ≠ [] ∧ (reached tx trace.steps (k + 1)).opened = [] ∧
      (reached tx trace.steps n).trailing =
        if k + 1 = n then none else some (k + 1, n - (k + 1)) := by
  induction n with
  | zero => cases hclosed
  | succ n ih =>
    have hs : trace.steps[n]? = some trace.steps[n] := Array.getElem?_eq_getElem hn
    by_cases hopened : (reached tx trace.steps n).opened = []
    · obtain ⟨k, hk, hbefore, hafter, htrailing⟩ := ih (Nat.le_of_succ_le hn) hopened
      refine ⟨k, Nat.lt_succ_of_lt hk, hbefore, hafter, ?_⟩
      rw [reached_succ hs, step_eq_trail hopened, if_neg (by omega), trail, htrailing]
      dsimp only
      split
      · next heq =>
        rw [Option.getD_none, ← heq, Nat.add_sub_cancel_left]
      · rw [Option.getD_some, Nat.sub_add_comm hk]
    · refine ⟨n, Nat.lt_succ_self n, hopened, hclosed, ?_⟩
      have hline : (reached tx trace.steps n).line ≠ [] := by simpa [line] using hopened
      have hnone := (coherent_reached tx (Nat.le_of_succ_le hn)).ranged.trailing_eq_none hline
      rw [if_pos rfl, reached_succ hs, step_eq_execute hopened, trailing_execute, arrive]
      exact ((trailing_settle _ _).trans (trailing_align _ _ _)).trans hnone

theorem trailing_closeAll (b : Progress) : (b.closeAll steps).trailing = b.trailing := by
  fun_induction Progress.closeAll steps b with
  | case1 => rfl
  | case2 b top rest hopened ih => rw [ih, trailing_close]

/-- The end of the trace leaves a tree as it is in which no frame is open. -/
theorem closed_eq_reached {trace : Trace} {last : Step} (hlast : trace.steps.back? = some last)
    (hclosed : (reached tx trace.steps trace.steps.size).opened = []) :
    closed tx trace = reached tx trace.steps trace.steps.size := by
  have herror : (reached tx trace.steps trace.steps.size).finishError trace.steps =
      reached tx trace.steps trace.steps.size := by
    unfold finishError
    rw [hclosed]
  rw [closed_eq_of_back? hlast, herror, finishOpen, hclosed]
  rfl

theorem trailing_closed_of_opened {trace : Trace} {last : Step}
    (hlast : trace.steps.back? = some last)
    (hopened : (reached tx trace.steps trace.steps.size).opened ≠ []) :
    (closed tx trace).trailing = none := by
  have hline : (reached tx trace.steps trace.steps.size).line ≠ [] := by simpa [line] using hopened
  have hnone := (coherent_reached tx (Nat.le_refl _)).ranged.trailing_eq_none hline
  have herror : ((reached tx trace.steps trace.steps.size).finishError trace.steps).trailing =
      none := by
    unfold finishError
    split
    · split
      · rw [trailing_close, hnone]
      · exact hnone
    · exact hnone
  rw [closed_eq_of_back? hlast]
  unfold finishOpen
  split
  · exact herror
  · exact (trailing_closeAll _).trans herror

end TxTrace.Progress

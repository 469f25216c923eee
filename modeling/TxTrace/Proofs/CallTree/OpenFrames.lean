import TxTrace.Proofs.CallTree.Entrance
import TxTrace.Proofs.CallTree.LastStep
import TxTrace.Proofs.Machine.Align

/-!
The open frames between the steps of a trace and while a step is brought to its depth. They are always the
chain of calls that leads from the outermost frame to the innermost one, each a level further in and running
one deeper than the one before it (`Stacked`). Calls nest only so deep, and so no frame of the tree stands
further in than that (`CallTree.stacked_ofTrace`).
-/

namespace TxTrace

open Place

namespace Progress

variable {tx : Transaction} {trace : Trace} {steps : Array Step} {b b' : Progress}

/-! ### The stack of open frames -/

/-- The open frames, the outermost one first. -/
def stack (b : Progress) : List OpenFrame := b.opened.reverse

/-- The depth of the innermost open frame. -/
def topDepth? (b : Progress) : Option Nat := b.opened.head?.map (·.depth)

/-- The open frames are a chain of calls from the outermost frame of the tree inwards. As many frames stand
    around each as come before it, and it runs one deeper than the one that called it. -/
structure Stacked (b : Progress) : Prop where
  root : ∀ {o : OpenFrame}, b.stack[0]? = some o →
    o.id = 0 ∧ ∃ f, b.frames[0]? = some f ∧ f.parent = none
  level : ∀ {i : Nat} {o : OpenFrame}, b.stack[i]? = some o →
    ∃ f, b.frames[o.id]? = some f ∧ f.level = i
  parent : ∀ {i : Nat} {outer inner : OpenFrame}, b.stack[i]? = some outer →
    b.stack[i + 1]? = some inner → ∃ f, b.frames[inner.id]? = some f ∧ f.parent = some outer.id
  depth : ∀ {i : Nat} {outer inner : OpenFrame}, b.stack[i]? = some outer →
    b.stack[i + 1]? = some inner → inner.depth = outer.depth + 1

theorem length_stack (b : Progress) : b.stack.length = b.opened.length := List.length_reverse

theorem exists_outer {i : Nat} {inner : OpenFrame} (hinner : b.stack[i + 1]? = some inner) :
    ∃ outer, b.stack[i]? = some outer :=
  ⟨_, List.getElem?_eq_getElem (Nat.lt_of_succ_lt (List.getElem?_eq_some_iff.1 hinner).1)⟩

/-- What neighbours among the open frames have, neighbours on the stack have the other way around. -/
theorem rel_of_stack {R : OpenFrame → OpenFrame → Prop} (h : b.opened.IsChain R) {i : Nat}
    {outer inner : OpenFrame} (houter : b.stack[i]? = some outer)
    (hinner : b.stack[i + 1]? = some inner) : R inner outer := by
  have hchain : b.stack.IsChain fun outer inner => R inner outer := List.isChain_reverse.2 h
  obtain ⟨hi, rfl⟩ := List.getElem?_eq_some_iff.1 houter
  obtain ⟨hi', rfl⟩ := List.getElem?_eq_some_iff.1 hinner
  exact hchain.getElem i hi'

theorem exists_of_place {id : Nat} {p : Place} (hp : b.places[id]? = some p) :
    ∃ f, b.frames[id]? = some f ∧ f.place = p := by
  rw [places, Array.getElem?_map] at hp
  exact Option.map_eq_some_iff.1 hp

theorem stacked_of_coherent (hcoherent : Coherent b) (hcontiguous : Contiguous b) : Stacked b := by
  have hcalls : b.opened.IsChain fun inner outer => Calls b.places outer.id inner.id :=
    (List.isChain_map _).1 hcoherent.arranged.chain
  have hroot {o : OpenFrame} (ho : b.stack[0]? = some o) : o.id = 0 := by
    refine hcoherent.arranged.bottom o.id ?_
    rw [line, List.getLast?_map, ← List.head?_reverse, List.head?_eq_getElem?, ← stack, ho]
    rfl
  have hplace {i : Nat} {o : OpenFrame} (ho : b.stack[i]? = some o) :
      ∃ p, b.places[o.id]? = some p ∧ p.level = i := by
    induction i generalizing o with
    | zero =>
      obtain ⟨p, hp, -, hlevel⟩ := hcoherent.arranged.root
      exact ⟨p, (hroot ho).symm ▸ hp, hlevel⟩
    | succ i ih =>
      -- The frame before it on the stack called it, and stands a level further out.
      obtain ⟨outer, houter⟩ := exists_outer ho
      have hcall := rel_of_stack hcalls houter ho
      obtain ⟨q, hq⟩ : ∃ q, b.places[o.id]? = some q :=
        ⟨_, Array.getElem?_eq_getElem (lt_size_of_calls hcall)⟩
      obtain ⟨p, hp, hlevel⟩ := hcoherent.arranged.level_of_calls hcall hq
      obtain ⟨p', hp', hlevel'⟩ := ih houter
      obtain rfl := Option.some.inj (hp'.symm.trans hp)
      exact ⟨q, hq, by rw [hlevel, hlevel']⟩
  constructor
  case root =>
    intro o ho
    obtain ⟨p, hp, hparent, -⟩ := hcoherent.arranged.root
    obtain ⟨f, hf, rfl⟩ := exists_of_place hp
    exact ⟨hroot ho, f, hf, hparent⟩
  case level =>
    intro i o ho
    obtain ⟨p, hp, hlevel⟩ := hplace ho
    obtain ⟨f, hf, rfl⟩ := exists_of_place hp
    exact ⟨f, hf, hlevel⟩
  case parent => exact fun houter hinner => calls_places_iff.1 (rel_of_stack hcalls houter hinner)
  case depth => exact rel_of_stack hcontiguous

/-- Depths count the open frames. -/
theorem Stacked.depth_eq_add (h : Stacked b) {root o : OpenFrame} {i : Nat}
    (hroot : b.stack[0]? = some root) (ho : b.stack[i]? = some o) : o.depth = root.depth + i := by
  induction i generalizing o with
  | zero => rw [Option.some.inj (hroot.symm.trans ho), Nat.add_zero]
  | succ i ih =>
    obtain ⟨outer, houter⟩ := exists_outer ho
    rw [h.depth houter ho, ih houter, Nat.add_assoc]

theorem getElem?_stack_of_opened {top : OpenFrame} {outer : List OpenFrame} (hopened : b.opened = top :: outer) :
    b.stack[outer.length]? = some top := by
  rw [stack, hopened, List.reverse_cons, List.getElem?_append_right (Nat.le_of_eq List.length_reverse),
    List.length_reverse, Nat.sub_self]
  rfl

/-- Of the open frames the innermost one runs deepest, and there are no more of them than it is deep. -/
theorem Stacked.depth_le (h : Stacked b) {top : OpenFrame} {outer : List OpenFrame}
    (hopened : b.opened = top :: outer) :
    (∀ o ∈ b.opened, o.depth ≤ top.depth) ∧ b.opened.length ≤ top.depth + 1 := by
  have hlength : b.stack.length = outer.length + 1 := by rw [length_stack, hopened, List.length_cons]
  obtain ⟨root, hroot⟩ : ∃ root, b.stack[0]? = some root :=
    ⟨_, List.getElem?_eq_getElem (hlength ▸ Nat.succ_pos _)⟩
  have hdeepest := h.depth_eq_add hroot (getElem?_stack_of_opened hopened)
  constructor
  · intro o ho
    obtain ⟨i, hi⟩ := List.mem_iff_getElem?.1 (List.mem_reverse.2 ho)
    have hdepth := h.depth_eq_add hroot hi
    have hlt : i < b.stack.length := (List.getElem?_eq_some_iff.1 hi).1
    omega
  · rw [← length_stack, hlength]
    omega

/-! ### Between steps -/

theorem stacked_reached (tx : Transaction) {n : Nat} (hn : n ≤ trace.steps.size) :
    Stacked (reached tx trace.steps n) :=
  stacked_of_coherent (coherent_reached tx hn) (contiguous_reached tx hn)

theorem depth_le_of_getElem? {i : Nat} {s : Step} (hs : trace.steps[i]? = some s) :
    s.depth ≤ maxCallDepth + 1 :=
  trace.depth_le s (Array.mem_of_getElem? hs)

/-- Between steps, the innermost frame runs at most where a call from the deepest step leads. -/
theorem depth_top_le_reached {n : Nat} (hn : n ≤ trace.steps.size) {top : OpenFrame}
    {outer : List OpenFrame} (hopened : (reached tx trace.steps n).opened = top :: outer) :
    top.depth ≤ maxCallDepth + 2 := by
  cases n with
  | zero =>
    obtain ⟨rfl, -⟩ := List.cons.inj hopened
    cases hs : trace.steps[0]? with
    | none => simp
    | some s => exact Nat.le_succ_of_le (depth_le_of_getElem? hs)
  | succ n =>
    have hs : trace.steps[n]? = some trace.steps[n] := Array.getElem?_eq_getElem hn
    have hdepth := depth_le_of_getElem? hs
    have hbefore := reached_ne_nil_of_le (Nat.le_succ n) hn (hopened ▸ List.cons_ne_nil top outer)
    cases standing_reached tx hs hbefore with
    | inside hcons hlevel | entered hcons hlevel | left hcons hlevel =>
      obtain ⟨rfl, -⟩ := List.cons.inj (hcons.symm.trans hopened)
      omega
    | ended hclosed => exact absurd (hclosed.symm.trans hopened) (by simp)

theorem fits_reached (tx : Transaction) {n : Nat} (hn : n ≤ trace.steps.size) :
    Machine.Fits (reached tx trace.steps n) := by
  intro o ho
  obtain ⟨top, outer, hopened⟩ := List.exists_cons_of_ne_nil (List.ne_nil_of_mem ho)
  have hle : o.depth ≤ top.depth := ((stacked_reached tx hn).depth_le hopened).1 o ho
  have htop : top.depth ≤ maxCallDepth + 2 := depth_top_le_reached hn hopened
  exact Nat.lt_of_le_of_lt (Nat.le_trans hle htop) (by decide)

/-! ### Bringing a step to its depth -/

theorem topDepth?_of_opened {top : OpenFrame} {outer : List OpenFrame} (hopened : b.opened = top :: outer) :
    b.topDepth? = some top.depth := by
  rw [topDepth?, hopened]
  rfl

theorem topDepth?_setDepth (hopened : b.opened ≠ []) (depth : Nat) :
    (b.setDepth depth).topDepth? = some depth := by
  obtain ⟨top, outer, hcons⟩ := List.exists_cons_of_ne_nil hopened
  exact topDepth?_of_opened (opened_setDepth hcons depth)

/-- From whatever frames are open, the innermost one gets the depth of the step. -/
theorem topDepth?_align (hopened : b.opened ≠ []) (i depth : Nat) :
    (b.align steps i depth).topDepth? = some depth := by
  fun_induction align steps i depth b with
  | case1 b hnil => exact absurd hnil hopened
  | case2 b top rest hcons heq => rw [topDepth?_of_opened hcons, heq]
  | case3 b top rest hcons hne hhalt error ih => exact ih (by rw [opened_close, hcons]; exact hhalt.2)
  | case4 b top rest hcons hne hnot =>
    unfold realign
    apply topDepth?_setDepth
    split
    · exact closeAbove_ne_nil (b := b.record _) hopened
    · exact enterUnseen_ne_nil i _ (b.record _) hopened

/-- The frame at `id` is closed on the way from one tree to the other, as one that halted. -/
def Halts (b b' : Progress) (id : Nat) : Prop :=
  id ∈ b.line ∧ id ∉ b'.line ∧ ∃ f, b'.frames[id]? = some f ∧ f.status = .invalid

theorem frames_closeAbove_of_not_mem {i depth id : Nat} (hid : id ∉ b.line) :
    (b.closeAbove steps i depth).frames[id]? = b.frames[id]? := by
  fun_induction closeAbove steps i depth b with
  | case1 b top next rest hopened hlt ih =>
    rw [ih fun h => hid (mem_line_of_close h), frames_close_of_not_mem hid]
  | case2 => rfl
  | case3 => rfl

/-- Of the frames that a jump closes it is not known how they ended. -/
theorem unknown_closeAbove {i depth id : Nat} {f : Frame} (hid : id ∈ b.line)
    (hid' : id ∉ (b.closeAbove steps i depth).line)
    (hf : (b.closeAbove steps i depth).frames[id]? = some f) : f.status = .unknown := by
  fun_induction closeAbove steps i depth b with
  | case1 b top next rest hopened hlt ih =>
    by_cases hrest : id ∈ (b.close steps ⟨before i, .unknown, none, none⟩).line
    · exact ih hrest hid' hf
    · rw [frames_closeAbove_of_not_mem hrest] at hf
      obtain ⟨g, -, rfl⟩ := exists_of_closed hid hrest hf
      rfl
  | case2 => exact absurd hid hid'
  | case3 => exact absurd hid hid'

/-- Only the innermost frame halts when a step is brought to its depth. -/
theorem Aligned.eq_head_of_halts {i depth id : Nat} (h : Aligned steps i depth b b')
    (hhalts : Halts b b' id) : b.line.head? = some id := by
  obtain ⟨hid, hid', f, hf, hstatus⟩ := hhalts
  cases h with
  | level => exact absurd hid hid'
  | @halted top outer hopened =>
    rw [line_close hopened] at hid'
    rw [line_of_opened hopened] at hid ⊢
    rw [(List.mem_cons.1 hid).resolve_right hid']
    rfl
  | @jumped top outer hopened =>
    exfalso
    unfold realign at hid' hf
    dsimp only at hid' hf
    rw [line_setDepth] at hid'
    rw [frames_setDepth] at hf
    split at hid'
    · next hlt =>
      rw [if_pos hlt] at hf
      have hunknown := unknown_closeAbove (b := b.record _) hid hid' hf
      rw [hstatus] at hunknown
      cases hunknown
    · exact hid' (mem_line_enterUnseen (b := b.record _) hid)

/-- The step at `i`, which runs at `depth`, finds the open frames of the one tree and runs with those of the other:
    a loop leads from the one to the other and ends, the innermost frame is then at the depth of the step, and at
    most one frame has halted on the way. -/
structure BroughtTo (steps : Array Step) (i depth : Nat) (b b' : Progress) : Prop where
  ends : b' ∈ Machine.align steps i (.ofNat depth) b
  depth : b'.topDepth? = some depth
  stacked : Stacked b'
  halts : ∀ {id id' : Nat}, Halts b b' id → Halts b b' id' → id = id'

theorem broughtTo_reached (tx : Transaction) {n : Nat} {s : Step} (hs : trace.steps[n]? = some s)
    (hroot : 0 ∈ (reached tx trace.steps n).line) :
    BroughtTo trace.steps n s.depth (reached tx trace.steps n)
      ((reached tx trace.steps n).align trace.steps n s.depth) := by
  have hle : n ≤ trace.steps.size := Nat.le_of_lt (Array.getElem?_eq_some_iff.1 hs).1
  have hmax : s.depth ≤ maxCallDepth + 1 := depth_le_of_getElem? hs
  have hopened : (reached tx trace.steps n).opened ≠ [] := by
    intro hnil
    rw [line, hnil] at hroot
    cases hroot
  have hcontiguous := contiguous_reached tx hle
  have haligned : Aligned trace.steps n s.depth (reached tx trace.steps n)
      ((reached tx trace.steps n).align trace.steps n s.depth) := aligned_align hcontiguous hopened n s.depth
  have hcoherent : Coherent ((reached tx trace.steps n).align trace.steps n s.depth) := by
    have hran := size_owners_reached tx hle
    have hmoves := moves_align (reached tx trace.steps n) (hran.symm ▸ hs)
    rw [hran] at hmoves
    exact hmoves.preserves Move.coherent (coherent_reached tx hle)
  constructor
  case ends =>
    have hdepth : (UInt32.ofNat s.depth).toNat = s.depth :=
      UInt32.toNat_ofNat_of_lt' (Nat.lt_of_le_of_lt hmax (by decide))
    have hends : (reached tx trace.steps n).align trace.steps n (UInt32.ofNat s.depth).toNat ∈
        Machine.align trace.steps n (.ofNat s.depth) (reached tx trace.steps n) :=
      Machine.mem_align (fits_reached tx hle) hopened _
    rwa [hdepth] at hends
  case depth => exact topDepth?_align hopened n s.depth
  case stacked => exact stacked_of_coherent hcoherent (haligned.contiguous hcontiguous hmax).1
  case halts =>
    intro id id' h h'
    exact Option.some.inj ((haligned.eq_head_of_halts h).symm.trans (haligned.eq_head_of_halts h'))

/-! ### Levels -/

theorem length_opened_enter (hopened : b.opened ≠ []) (f : Frame) :
    (b.enter f).opened.length = b.opened.length + 1 := by
  obtain ⟨top, outer, hcons⟩ := List.exists_cons_of_ne_nil hopened
  rw [opened_enter b f hcons, List.length_cons]

theorem length_opened_enterUnseen (hopened : b.opened ≠ []) (i count : Nat) :
    (b.enterUnseen i count).opened.length = b.opened.length + count := by
  induction count generalizing b with
  | zero => rfl
  | succ count ih =>
    rw [Progress.enterUnseen, ih (enter_ne_nil b _ hopened), length_opened_enter hopened]
    omega

theorem length_opened_setDepth (b : Progress) (depth : Nat) :
    (b.setDepth depth).opened.length = b.opened.length := by
  have hline : (b.setDepth depth).line.length = b.line.length := by rw [line_setDepth]
  simpa only [line, List.length_map] using hline

/-- All frames stand at most `n` levels further in than the outermost one. -/
def LevelsWithin (n : Nat) (b : Progress) : Prop :=
  ∀ (id : Nat) (f : Frame), b.frames[id]? = some f → f.level ≤ n

namespace LevelsWithin

variable {n : Nat}

theorem congr (h : LevelsWithin n b) (hframes : b'.frames = b.frames) : LevelsWithin n b' := by
  unfold LevelsWithin
  rw [hframes]
  exact h

theorem of_modify (h : LevelsWithin n b) {id : Nat} {g : Frame → Frame}
    (hframes : b'.frames = b.frames.modify id g) (hg : ∀ f : Frame, f.SameCall (g f)) :
    LevelsWithin n b' := by
  intro i f' hf'
  rw [hframes] at hf'
  obtain ⟨f, hf, hsame⟩ := exists_of_frames_modify hf' .refl hg
  exact hsame.level ▸ h i f hf

theorem close (h : LevelsWithin n b) (ending : Ending) : LevelsWithin n (b.close steps ending) := by
  cases hopened : b.opened with
  | nil => exact h.congr (by rw [close_of_nil ending hopened])
  | cons top outer => exact h.of_modify (frames_close b hopened) fun f => f.sameCall_finish steps ending

/-- A frame that is added stands as many levels further in as frames are open. -/
theorem add (h : LevelsWithin n b) (hopened : b.opened ≠ []) (hn : b.opened.length ≤ n) (f : Frame) :
    LevelsWithin n (b.add f) := by
  obtain ⟨top, outer, hcons⟩ := List.exists_cons_of_ne_nil hopened
  intro id f' hf'
  rcases exists_of_frames_add (R := fun g g' => g'.level = g.level) hcons hf' (fun _ => rfl)
    (fun _ _ => rfl) with ⟨g, hg, hlevel⟩ | ⟨-, rfl⟩
  · exact hlevel ▸ h id g hg
  · exact hn

theorem enter (h : LevelsWithin n b) (hopened : b.opened ≠ []) (hn : b.opened.length ≤ n) (f : Frame) :
    LevelsWithin n (b.enter f) :=
  (h.add hopened hn f).congr (frames_enter b f)

theorem closeAbove (h : LevelsWithin n b) (i depth : Nat) : LevelsWithin n (b.closeAbove steps i depth) := by
  fun_induction Progress.closeAbove steps i depth b with
  | case1 b top next rest hopened hlt ih => exact ih (h.close _)
  | case2 => exact h
  | case3 => exact h

theorem enterUnseen (h : LevelsWithin n b) {i count : Nat} (hopened : b.opened ≠ [])
    (hn : b.opened.length + count ≤ n + 1) : LevelsWithin n (b.enterUnseen i count) := by
  induction count generalizing b with
  | zero => exact h
  | succ count ih =>
    have hopened' := enter_ne_nil b { parent := none, callType := .call, level := 0, start := i } hopened
    refine ih (h.enter hopened (by omega) _) hopened' ?_
    rw [length_opened_enter hopened]
    omega

/-- The frames that are opened for a step are still open when it runs. -/
theorem align (h : LevelsWithin n b) {i depth : Nat} (haligned : Aligned steps i depth b b')
    (hn : b'.opened.length ≤ n + 1) : LevelsWithin n b' := by
  cases haligned with
  | level => exact h
  | halted => exact h.close _
  | @jumped top outer hopened =>
    have hrecord : LevelsWithin n (b.record (.depthJump i top.depth depth)) := h
    have hopened' : (b.record (.depthJump i top.depth depth)).opened ≠ [] := hopened ▸ List.cons_ne_nil _ _
    refine congr ?_ (frames_setDepth _ depth)
    unfold realign at hn
    rw [length_opened_setDepth] at hn
    split
    · exact hrecord.closeAbove i depth
    · next hge =>
      rw [if_neg hge, length_opened_enterUnseen hopened'] at hn
      exact hrecord.enterUnseen hopened' hn

theorem settle (h : LevelsWithin n b) (s : Step) : LevelsWithin n (b.settle s) := by
  cases hst : b.settlement with
  | none => exact h.congr (by rw [settle_of_none hst])
  | some st => exact h.of_modify (frames_settle hst s) fun f => f.sameCall_settle s st.needsOutput

theorem execute (h : LevelsWithin n b) (hopened : b.opened ≠ []) (hn : b.opened.length ≤ n) (i : Nat)
    (s : Step) : LevelsWithin n (b.execute steps i s) := by
  unfold Progress.execute
  split
  · next type _ =>
    have hcheck : LevelsWithin n (b.checkOperands i s type) := h.congr (frames_checkOperands i s type b)
    have hopened' := (opened_checkOperands i s type b).symm ▸ hopened
    have hn' := (opened_checkOperands i s type b).symm ▸ hn
    by_cases hhalts : s.error.isSome ∨ (steps[i + 1]?).any (·.depth < s.depth)
    · rw [call_eq_self hhalts]
      exact h
    · cases hnext : (steps[i + 1]?).filter (·.depth = s.depth) with
      | some next =>
        rw [call_eq_add hhalts hnext]
        exact hcheck.add hopened' hn' _
      | none =>
        rw [call_eq_enter hhalts hnext]
        exact hcheck.enter hopened' hn' _
  · exact h.close _
  · unfold Progress.log
    split
    · exact h
    · next log _ => exact h.of_modify rfl fun f => f.sameCall_log (f.logs.push log)
  · exact h

end LevelsWithin

/-- A step runs in no more frames than it is deep, so a call leads at most one level further in. -/
theorem levelsWithin_reached (tx : Transaction) {n : Nat} (hn : n ≤ trace.steps.size) :
    LevelsWithin (maxCallDepth + 2) (reached tx trace.steps n) := by
  induction n with
  | zero =>
    intro id f hf
    obtain rfl : id = 0 := Nat.lt_one_iff.1 (Array.getElem?_eq_some_iff.1 hf).1
    obtain rfl := Option.some.inj hf
    exact Nat.zero_le _
  | succ n ih =>
    have hs : trace.steps[n]? = some trace.steps[n] := Array.getElem?_eq_getElem hn
    have hle : n ≤ trace.steps.size := Nat.le_of_succ_le hn
    by_cases hopened : (reached tx trace.steps n).opened = []
    · exact (ih hle).congr (reached_of_closed (Nat.le_succ n) hn hopened).2.1
    · have hcontiguous := contiguous_reached tx hle
      obtain ⟨top, outer, harrived⟩ := arrived_reached hs hcontiguous hopened
      have hlength : ((reached tx trace.steps n).arrive trace.steps n trace.steps[n]).opened.length ≤
          maxCallDepth + 2 := by
        have hstacked := stacked_of_coherent harrived.coherent harrived.contiguous
        have hdepth := depth_le_of_getElem? hs
        have := (hstacked.depth_le harrived.opened).2
        rw [harrived.depth] at this
        omega
      have halign : LevelsWithin (maxCallDepth + 2)
          ((reached tx trace.steps n).align trace.steps n trace.steps[n].depth) := by
        refine (ih hle).align (aligned_align hcontiguous hopened n _) ?_
        rw [← opened_arrive]
        exact Nat.le_succ_of_le hlength
      rw [reached_succ hs, step_eq_execute hopened]
      have harrive : LevelsWithin (maxCallDepth + 2)
          ((reached tx trace.steps n).arrive trace.steps n trace.steps[n]) :=
        (halign.settle trace.steps[n]).congr rfl
      exact harrive.execute (arrive_ne_nil hopened n _) hlength n _

theorem levelsWithin_closed (tx : Transaction) (trace : Trace) :
    LevelsWithin (maxCallDepth + 2) (closed tx trace) := by
  apply closed_preserves (levelsWithin_reached tx (Nat.le_refl _))
  · intro b _ h
    exact h.of_modify rfl fun f => f.sameCall_status _
  · intro _ _ _ h
    exact h.close _
  · exact id

end Progress

namespace CallTree

open Progress

/-- The open frames of a trace are well formed before and after every step, and while the step is brought to its
    depth. The loop that does this also ends for depths that no step of a trace has, from whatever frames are open.
    No frame stands further in than a call from the deepest step leads. -/
theorem stacked_ofTrace (tx : Transaction) (trace : Trace) (r : Registry) :
    (∀ n ≤ trace.steps.size, Stacked (reached tx trace.steps n)) ∧
      (∀ (n : Nat) (s : Step), trace.steps[n]? = some s → 0 ∈ (reached tx trace.steps n).line →
        BroughtTo trace.steps n s.depth (reached tx trace.steps n)
          ((reached tx trace.steps n).align trace.steps n s.depth)) ∧
      (∀ (steps : Array Step) (b : Progress) (i : Nat) (depth : UInt32), b.opened ≠ [] → Machine.Fits b →
        ∃ b' ∈ Machine.align steps i depth b, b'.topDepth? = some depth.toNat) ∧
      ∀ (id : Nat) (f : Frame), ((ofTrace tx trace).1.named r).1.frame? id = some f →
        f.level ≤ maxCallDepth + 2 := by
  refine ⟨fun n hn => stacked_reached tx hn, fun n s => broughtTo_reached tx, ?_, ?_⟩
  · intro steps b i depth hopened hfits
    exact ⟨_, Machine.mem_align hfits hopened depth, topDepth?_align hopened i depth.toNat⟩
  · intro id f hf
    rw [frame?_named_ofTrace] at hf
    obtain ⟨g, hg, rfl⟩ := Option.map_eq_some_iff.1 hf
    rw [(sameCall_finalFrame tx trace r id g).level]
    exact levelsWithin_closed tx trace id g hg

/-- The frame that a step halts in is closed when the next step runs. -/
theorem stacked_ofTrace_haltedCall :
    let tx : Transaction := ⟨none, 0xee, some 0xbb, [], 0, 0, 0, none, none⟩
    (reached tx haltedCall.steps 2).line = [1, 0] ∧ Stacked (reached tx haltedCall.steps 2) ∧
      ∃ b' ∈ Machine.align haltedCall.steps 2 1 (reached tx haltedCall.steps 2),
        b'.topDepth? = some 1 ∧ Stacked b' := by
  intro tx
  obtain ⟨hstacked, hbrought, -⟩ := stacked_ofTrace tx haltedCall Registry.empty
  have hline : (reached tx haltedCall.steps 2).line = [1, 0] := by decide +kernel
  have hlast := hbrought 2 _ rfl (hline ▸ by decide)
  exact ⟨hline, hstacked 2 (by decide), _, hlast.ends, hlast.depth, hlast.stacked⟩

end CallTree

end TxTrace

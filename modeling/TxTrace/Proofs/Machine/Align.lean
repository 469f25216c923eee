import Mathlib.Data.PFun
import TxTrace.Proofs.CallTree.Standing

/-!
Bringing the open frames to the depth of a step as a machine does it: in loops, with depths of 32 bits. A loop
that runs forever has no value. Whatever the depth is, and whatever those of the open frames are, none does
(`mem_align`).
-/

namespace TxTrace.Machine

variable {steps : Array Step} {i : Nat} {depth target : UInt32} {b : Progress}

/-! ### Depths -/

/-- The depth below, if it has 32 bits. -/
def deeper? (depth : UInt32) : Option UInt32 :=
  if depth.toNat + 1 < UInt32.size then some (depth + 1) else none

/-- The depth below, or the largest one. -/
def deeperSat (depth : UInt32) : UInt32 := (deeper? depth).getD depth

/-- The depth of the innermost open frame. -/
def topDepth (b : Progress) : UInt32 := .ofNat ((b.opened.head?.map (·.depth)).getD 0)

/-- The depths of the open frames have 32 bits. -/
def Fits (b : Progress) : Prop := ∀ o ∈ b.opened, o.depth < UInt32.size

theorem toNat_deeper (h : depth.toNat + 1 < UInt32.size) : (depth + 1).toNat = depth.toNat + 1 := by
  rw [UInt32.toNat_add, UInt32.toNat_one]
  exact Nat.mod_eq_of_lt h

theorem deeper?_eq_some_iff {depth' : UInt32} :
    deeper? depth = some depth' ↔ depth.toNat + 1 = depth'.toNat := by
  unfold deeper?
  split
  · next hlt => rw [Option.some.injEq, ← UInt32.toNat_inj, toNat_deeper hlt]
  · next hge =>
    have hlt := depth'.toNat_lt_size
    refine iff_of_false (fun hnone => nomatch hnone) ?_
    omega

theorem toNat_deeperSat (h : depth.toNat + 1 < UInt32.size) :
    (deeperSat depth).toNat = depth.toNat + 1 := by
  rw [deeperSat, deeper?, if_pos h, Option.getD_some, toNat_deeper h]

theorem toNat_topDepth (hfits : Fits b) {top : OpenFrame} {outer : List OpenFrame}
    (hopened : b.opened = top :: outer) : (topDepth b).toNat = top.depth := by
  have hlt : top.depth < UInt32.size := hfits top (hopened ▸ List.mem_cons_self)
  rw [topDepth, hopened]
  exact UInt32.toNat_ofNat_of_lt' hlt

theorem Fits.close (h : Fits b) (ending : Ending) : Fits (b.close steps ending) := by
  intro o ho
  rw [Progress.opened_close] at ho
  exact h o (List.mem_of_mem_tail ho)

theorem Fits.enter (h : Fits b) {top : OpenFrame} {outer : List OpenFrame} (hopened : b.opened = top :: outer)
    (hlt : top.depth + 1 < UInt32.size) (f : Frame) : Fits (b.enter f) := by
  intro o ho
  rw [Progress.opened_enter b f hopened] at ho
  rcases List.mem_cons.1 ho with rfl | ho
  · exact hlt
  · exact h o ho

/-! ### Loops -/

/-- The body is run as long as the condition holds. If it never fails there is no result. -/
noncomputable def runWhile (cond : Progress → Prop) [DecidablePred cond] (body : Progress → Progress) :
    Progress →. Progress :=
  PFun.fix fun b => Part.some (if cond b then .inr (body b) else .inl b)

/-- While the innermost open frame is above `depth`, and not the only one, it is closed. -/
noncomputable def closeAbove (steps : Array Step) (i : Nat) (depth : UInt32) : Progress →. Progress :=
  runWhile (fun b => depth < topDepth b ∧ 1 < b.opened.length)
    (·.close steps ⟨Progress.before i, .unknown, none, none⟩)

/-- A frame opened the call of which was not seen. -/
def enterUnseen (i : Nat) (b : Progress) : Progress :=
  let b' := b.add { parent := none, callType := .call, level := 0, start := i }
  { b' with opened := ⟨b.frames.size, (deeperSat (topDepth b)).toNat⟩ :: b'.opened }

/-- While the innermost open frame is not at the depth `target` yet, one more is opened. -/
noncomputable def enterBelow (i : Nat) (target : UInt32) : Progress →. Progress :=
  runWhile (fun b => topDepth b < target) (enterUnseen i)

/-- A turn of the loop that brings the open frames to the depth of the step at `i`. It leaves the loop, or the
    tree for the next turn. -/
noncomputable def alignTurn (steps : Array Step) (i : Nat) (depth : UInt32) :
    Progress →. Progress ⊕ Progress := fun b =>
  if depth = topDepth b then Part.some (.inl b)
  else if deeper? depth = some (topDepth b) ∧ 1 < b.opened.length then
    let error := (Progress.before i).bind fun p => steps[p]?.bind (·.error)
    Part.some (.inr (b.close steps ⟨Progress.before i, .invalid, some [], error⟩))
  else
    let b := b.record (.depthJump i (topDepth b).toNat depth.toNat)
    let realigned :=
      if depth < topDepth b then closeAbove steps i depth b
      else enterBelow i (min depth (.ofNat (maxCallDepth + 1))) b
    realigned.map fun b => .inl (b.setDepth depth.toNat)

/-- The open frames brought to the depth of the step at `i`. -/
noncomputable def align (steps : Array Step) (i : Nat) (depth : UInt32) : Progress →. Progress :=
  PFun.fix (alignTurn steps i depth)

/-! ### Their ends -/

theorem one_lt_length_iff {top : OpenFrame} {outer : List OpenFrame} (hopened : b.opened = top :: outer) :
    1 < b.opened.length ↔ outer ≠ [] := by
  rw [hopened, List.length_cons, Nat.lt_add_left_iff_pos, List.length_pos_iff]

theorem lt_topDepth_iff (hfits : Fits b) {top : OpenFrame} {outer : List OpenFrame}
    (hopened : b.opened = top :: outer) : depth < topDepth b ↔ depth.toNat < top.depth := by
  rw [UInt32.lt_iff_toNat_lt, toNat_topDepth hfits hopened]

theorem mem_runWhile_of_not {cond : Progress → Prop} [DecidablePred cond] (h : ¬ cond b)
    (body : Progress → Progress) : b ∈ runWhile cond body b :=
  PFun.fix_stop (Part.mem_some_iff.2 (if_neg h).symm)

theorem runWhile_eq {cond : Progress → Prop} [DecidablePred cond] (h : cond b)
    (body : Progress → Progress) : runWhile cond body b = runWhile cond body (body b) :=
  PFun.fix_fwd_eq (Part.mem_some_iff.2 (if_pos h).symm)

theorem mem_closeAbove (hfits : Fits b) :
    b.closeAbove steps i depth.toNat ∈ closeAbove steps i depth b := by
  fun_induction Progress.closeAbove steps i depth.toNat b with
  | case1 b top next rest hopened hlt ih =>
    have hmore := (one_lt_length_iff hopened).2 (List.cons_ne_nil next rest)
    rw [closeAbove, runWhile_eq ⟨(lt_topDepth_iff hfits hopened).2 hlt, hmore⟩]
    exact ih (hfits.close _)
  | case2 b top next rest hopened hge =>
    exact mem_runWhile_of_not (fun h => hge ((lt_topDepth_iff hfits hopened).1 h.1)) _
  | case3 b hshort =>
    refine mem_runWhile_of_not ?_ _
    rintro ⟨-, hmore⟩
    obtain ⟨top, outer, hopened⟩ := List.exists_cons_of_length_pos (Nat.zero_lt_of_lt hmore)
    obtain ⟨next, rest, rfl⟩ := List.exists_cons_of_ne_nil ((one_lt_length_iff hopened).1 hmore)
    exact hshort top next rest hopened

theorem enterUnseen_eq (hfits : Fits b) {top : OpenFrame} {outer : List OpenFrame}
    (hopened : b.opened = top :: outer) (hlt : top.depth + 1 < UInt32.size) :
    enterUnseen i b = b.enter { parent := none, callType := .call, level := 0, start := i } := by
  have htop := toNat_topDepth hfits hopened
  have hdeeper : (deeperSat (topDepth b)).toNat = top.depth + 1 := by
    rw [toNat_deeperSat (htop ▸ hlt), htop]
  unfold enterUnseen Progress.enter
  rw [hdeeper, hopened]
  simp only [Progress.opened_add, hopened]

theorem mem_enterBelow (hfits : Fits b) {top : OpenFrame} {outer : List OpenFrame}
    (hopened : b.opened = top :: outer) :
    b.enterUnseen i (target.toNat - top.depth) ∈ enterBelow i target b := by
  generalize hcount : target.toNat - top.depth = count
  induction count generalizing b top outer with
  | zero =>
    have hge : ¬ topDepth b < target := by
      rw [UInt32.lt_iff_toNat_lt, toNat_topDepth hfits hopened]
      omega
    exact mem_runWhile_of_not hge _
  | succ count ih =>
    have hlt : topDepth b < target := by
      rw [UInt32.lt_iff_toNat_lt, toNat_topDepth hfits hopened]
      omega
    -- The target is no higher than the new frame, the depth of which is therefore not cut off.
    have hroom : top.depth + 1 < UInt32.size := by
      have := target.toNat_lt_size
      omega
    rw [enterBelow, runWhile_eq hlt, enterUnseen_eq hfits hopened hroom]
    exact ih (hfits.enter hopened hroom _) (Progress.opened_enter b _ hopened)
      (by rw [Nat.sub_add_eq, hcount, Nat.add_sub_cancel])

/-- The loop ends from any open frames and for any depth, and does what is done without loops. -/
theorem mem_align (hfits : Fits b) (hopened : b.opened ≠ []) (depth : UInt32) :
    b.align steps i depth.toNat ∈ align steps i depth b := by
  fun_induction Progress.align steps i depth.toNat b with
  | case1 b hnil => exact absurd hnil hopened
  | case2 b top rest hcons heq =>
    have hdepth : depth = topDepth b := UInt32.toNat_inj.1 (heq.trans (toNat_topDepth hfits hcons).symm)
    refine PFun.fix_stop ?_
    rw [alignTurn, if_pos hdepth]
    exact Part.mem_some _
  | case3 b top rest hcons hne hhalt error ih =>
    have htop := toNat_topDepth hfits hcons
    have hdepth : depth ≠ topDepth b := fun heq => hne (heq ▸ htop)
    have habove : deeper? depth = some (topDepth b) := deeper?_eq_some_iff.2 (hhalt.1.trans htop.symm)
    have hturn : .inr (b.close steps ⟨Progress.before i, .invalid, some [], error⟩) ∈
        alignTurn steps i depth b := by
      rw [alignTurn, if_neg hdepth, if_pos ⟨habove, (one_lt_length_iff hcons).2 hhalt.2⟩]
      exact Part.mem_some _
    rw [align, PFun.fix_fwd_eq hturn]
    exact ih (hfits.close _) (by rw [Progress.opened_close, hcons]; exact hhalt.2)
  | case4 b top rest hcons hne hnot =>
    have htop := toNat_topDepth hfits hcons
    have hdepth : depth ≠ topDepth b := fun heq => hne (heq ▸ htop)
    have hhalt : ¬ (deeper? depth = some (topDepth b) ∧ 1 < b.opened.length) := by
      rintro ⟨habove, hmore⟩
      exact hnot ⟨(deeper?_eq_some_iff.1 habove).trans htop, (one_lt_length_iff hcons).1 hmore⟩
    have hmin : (min depth (.ofNat (maxCallDepth + 1))).toNat = min depth.toNat (maxCallDepth + 1) :=
      UInt32.toNat_min _ _
    have hrecord : Fits (b.record (.depthJump i top.depth depth.toNat)) := hfits
    refine PFun.fix_stop ?_
    rw [alignTurn, if_neg hdepth, if_neg hhalt, htop, Progress.realign]
    refine Part.mem_map _ ?_
    by_cases hlt : depth.toNat < top.depth
    · rw [if_pos hlt, if_pos ((lt_topDepth_iff hrecord hcons).2 hlt)]
      exact mem_closeAbove hrecord
    · rw [if_neg hlt, if_neg fun h => hlt ((lt_topDepth_iff hrecord hcons).1 h), ← hmin]
      exact mem_enterBelow hrecord hcons

end TxTrace.Machine

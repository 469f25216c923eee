import TxTrace.Proofs.CallTree.Reached
import TxTrace.Proofs.CallTree.WellFormed

/-!
What the later steps of a trace leave as it is: the owners of earlier steps, what a frame has from its
call (`Frame.SameCall`), and of a frame that has ended all but what the next step tells of it
(`Frame.SettlesTo`).
-/

namespace TxTrace

/-- Both frames are of the same call. -/
structure Frame.SameCall (f f' : Frame) : Prop where
  parent : f'.parent = f.parent
  callType : f'.callType = f.callType
  level : f'.level = f.level
  callStep : f'.callStep = f.callStep
  start : f'.start = f.start
  value : f'.value = f.value
  input : f'.input = f.input

theorem Frame.SameCall.refl (f : Frame) : f.SameCall f := ⟨rfl, rfl, rfl, rfl, rfl, rfl, rfl⟩

theorem Frame.SameCall.trans {f g h : Frame} (hfg : f.SameCall g) (hgh : g.SameCall h) :
    f.SameCall h where
  parent := hgh.parent.trans hfg.parent
  callType := hgh.callType.trans hfg.callType
  level := hgh.level.trans hfg.level
  callStep := hgh.callStep.trans hfg.callStep
  start := hgh.start.trans hfg.start
  value := hgh.value.trans hfg.value
  input := hgh.input.trans hfg.input

theorem Frame.sameCall_finish (f : Frame) (steps : Array Step) (ending : Ending) :
    f.SameCall (f.finish steps ending) := ⟨rfl, rfl, rfl, rfl, rfl, rfl, rfl⟩

theorem Frame.sameCall_settle (f : Frame) (s : Step) (needsOutput : Bool) :
    f.SameCall (f.settle s needsOutput) := ⟨rfl, rfl, rfl, rfl, rfl, rfl, rfl⟩

theorem Frame.sameCall_log (f : Frame) (logs : Array Log) : f.SameCall { f with logs } :=
  ⟨rfl, rfl, rfl, rfl, rfl, rfl, rfl⟩

theorem Frame.sameCall_status (f : Frame) (status : Status) : f.SameCall { f with status } :=
  ⟨rfl, rfl, rfl, rfl, rfl, rfl, rfl⟩

/-- The second frame is the first one after a step has told what it can of a frame that has ended. -/
def Frame.SettlesTo (f f' : Frame) : Prop :=
  f' = { f with callee := f'.callee, context := f'.context, output := f'.output }

/-- What a change of the tree can do to a frame of it. -/
inductive Frame.Change (steps : Array Step) (f : Frame) : Frame → Prop
  | refl : Change steps f f
  | children (children : Array Nat) : Change steps f { f with children }
  | logs (logs : Array Log) : Change steps f { f with logs }
  | status (status : Status) : Change steps f { f with status }
  | finish (ending : Ending) : Change steps f (f.finish steps ending)
  | settle (s : Step) (needsOutput : Bool) : Change steps f (f.settle s needsOutput)

theorem Frame.SettlesTo.refl (f : Frame) : f.SettlesTo f := rfl

theorem Frame.SettlesTo.trans {f g h : Frame} (hfg : f.SettlesTo g) (hgh : g.SettlesTo h) :
    f.SettlesTo h := by
  unfold Frame.SettlesTo at *
  rw [hfg] at hgh
  exact hgh

namespace Progress

variable {tx : Transaction} {steps : Array Step} {b b' : Progress}

theorem getElem?_modify_of_some {frames : Array Frame} {id i : Nat} {g : Frame → Frame} {f : Frame}
    (hf : frames[i]? = some f) :
    (frames.modify id g)[i]? = some (if id = i then g f else f) := by
  rw [Array.getElem?_modify, hf]
  split <;> rfl

/-! ### Frames, one by one -/

theorem exists_change_of_add {f f' : Frame} {id : Nat} (hopened : b.opened ≠ []) (hbegins : Begins steps b f)
    (hf' : (b.add f).frames[id]? = some f') :
    (∃ g, b.frames[id]? = some g ∧ g.Change steps f') ∨
      ∃ g parent level, Begins steps b g ∧ f' = { g with parent, level } := by
  obtain ⟨top, outer, hcons⟩ := List.exists_cons_of_ne_nil hopened
  rcases exists_of_frames_add (R := Frame.Change steps) hcons hf' (fun _ => .refl) fun _ => .children with
    hold | ⟨_, hnew⟩
  · exact .inl hold
  · exact .inr ⟨f, _, _, hbegins, hnew⟩

/-- A frame is there before a move, and perhaps changed by it, or it begins with it. -/
theorem Move.exists_change (hmove : Move steps b b') {id : Nat} {f' : Frame} (hf' : b'.frames[id]? = some f') :
    (∃ f, b.frames[id]? = some f ∧ f.Change steps f') ∨
      ∃ f parent level, Begins steps b f ∧ f' = { f with parent, level } := by
  have hsame (hframes : b'.frames = b.frames) : ∃ f, b.frames[id]? = some f ∧ f.Change steps f' :=
    ⟨f', hframes ▸ hf', .refl⟩
  cases hmove with
  | record a => exact .inl (hsame rfl)
  | @close ending hends =>
    cases hopened : b.opened with
    | nil => exact .inl (hsame (by rw [close_of_nil ending hopened]))
    | cons top outer =>
      rw [frames_close b hopened] at hf'
      exact .inl (exists_of_frames_modify hf' (fun _ => .refl) fun _ => .finish ending)
  | enter hopened hbegins =>
    rw [frames_enter] at hf'
    exact exists_change_of_add hopened hbegins hf'
  | codeless hopened hbegins => exact exists_change_of_add hopened hbegins hf'
  | setDepth depth => exact .inl (hsame (frames_setDepth b depth))
  | settle hopened hs =>
    obtain ⟨f, hf, rfl | ⟨st, hst, rfl, rfl⟩⟩ := exists_of_frames_settle hf'
    · exact .inl ⟨_, hf, .refl⟩
    · exact .inl ⟨f, hf, .settle _ st.needsOutput⟩
  | own hopened => exact .inl (hsame rfl)
  | @log i s topics hopened hs hran hkind =>
    revert hsame hf'
    unfold Progress.log
    split
    · exact fun _ hsame => .inl (hsame rfl)
    · exact fun hf' _ => .inl (exists_of_frames_modify hf' (fun _ => .refl) fun _ => .logs _)
  | trail hclosed => exact .inl (hsame rfl)
  | finishEmpty failed hnone =>
    exact .inl (exists_of_frames_modify hf' (fun _ => .refl) fun _ => .status _)

/-- What every frame has when it begins, and keeps with each change, every frame of the closed tree has. -/
theorem forall_frames_closed {P : Frame → Prop} (tx : Transaction) (trace : Trace)
    (hroot : ∀ f, (ofTransaction tx trace.steps).frames[0]? = some f → P f)
    (hbegins : ∀ {b f}, Begins trace.steps b f → ∀ parent level, P { f with parent, level })
    (hchange : ∀ {f f'}, f.Change trace.steps f' → P f → P f') {id : Nat} {f : Frame}
    (hf : (closed tx trace).frames[id]? = some f) : P f := by
  have hstart {id : Nat} {f : Frame} (hf : (ofTransaction tx trace.steps).frames[id]? = some f) : P f := by
    obtain rfl : id = 0 := Nat.lt_one_iff.1 (Array.getElem?_eq_some_iff.1 hf).1
    exact hroot f hf
  refine (moves_closed tx trace).preserves (P := fun b => ∀ (id : Nat) (f : Frame), b.frames[id]? = some f → P f)
    (fun hmove h id f' hf' => ?_) (fun _ _ => hstart) id f hf
  rcases hmove.exists_change hf' with ⟨f, hf, hchanged⟩ | ⟨f, parent, level, hnew, rfl⟩
  · exact hchange hchanged (h id f hf)
  · exact hbegins hnew parent level

/-! ### Calls and owners -/

/-- The second tree has the owners and the frames of the first one, and perhaps more. -/
structure Extends (b b' : Progress) : Prop where
  owners : ∀ {j owner : Nat}, b.owners[j]? = some owner → b'.owners[j]? = some owner
  frames : ∀ {id : Nat} {f : Frame}, b.frames[id]? = some f →
    ∃ f', b'.frames[id]? = some f' ∧ f.SameCall f'

theorem Extends.refl (b : Progress) : Extends b b := ⟨id, fun hf => ⟨_, hf, Frame.SameCall.refl _⟩⟩

theorem Extends.trans {b'' : Progress} (h : Extends b b') (h' : Extends b' b'') : Extends b b'' where
  owners := h'.owners ∘ h.owners
  frames := by
    intro id f hf
    obtain ⟨f', hf', hsame⟩ := h.frames hf
    obtain ⟨f'', hf'', hsame'⟩ := h'.frames hf'
    exact ⟨f'', hf'', hsame.trans hsame'⟩

/-- One frame changed, but not its call. -/
theorem Extends.of_modify {id : Nat} {g : Frame → Frame} (hframes : b'.frames = b.frames.modify id g)
    (howners : b'.owners = b.owners) (hg : ∀ f : Frame, f.SameCall (g f)) : Extends b b' where
  owners := by
    rw [howners]
    exact fun howner => howner
  frames := by
    intro i f hf
    refine ⟨_, hframes ▸ getElem?_modify_of_some hf, ?_⟩
    split
    · exact hg f
    · exact .refl f

theorem extends_modify (b : Progress) (id : Nat) {g : Frame → Frame}
    (hg : ∀ f : Frame, f.SameCall (g f)) : Extends b (b.modify id g) :=
  .of_modify rfl rfl hg

theorem Extends.of_add {f : Frame} (hopened : b.opened ≠ []) (hframes : b'.frames = (b.add f).frames)
    (howners : b'.owners = b.owners) : Extends b b' where
  owners := by
    rw [howners]
    exact fun howner => howner
  frames := by
    intro i g hg
    obtain ⟨top, outer, hcons⟩ := List.exists_cons_of_ne_nil hopened
    have hne : i ≠ b.frames.size := Nat.ne_of_lt (Array.getElem?_eq_some_iff.1 hg).1
    rw [hframes, getElem?_frames_add b f hcons, if_neg hne, hg]
    split
    · exact ⟨_, rfl, rfl, rfl, rfl, rfl, rfl, rfl, rfl⟩
    · exact ⟨g, rfl, .refl g⟩

theorem Extends.of_push {owner : Nat} (hframes : b'.frames = b.frames)
    (howners : b'.owners = b.owners.push owner) : Extends b b' where
  owners := by
    intro j o ho
    have hlt := (Array.getElem?_eq_some_iff.1 ho).1
    rw [howners, Array.getElem?_push, if_neg (Nat.ne_of_lt hlt)]
    exact ho
  frames := by
    intro i f hf
    exact ⟨f, hframes ▸ hf, .refl f⟩

theorem Move.extends (hmove : Move steps b b') : Extends b b' := by
  cases hmove with
  | record a => exact ⟨id, fun hf => ⟨_, hf, .refl _⟩⟩
  | @close ending hends =>
    cases hopened : b.opened with
    | nil =>
      rw [close_of_nil ending hopened]
      exact .refl b
    | cons top outer =>
      exact .of_modify (frames_close b hopened) (owners_close b ending)
        fun f => f.sameCall_finish steps ending
  | enter hopened hbegins => exact .of_add hopened (frames_enter b _) (owners_enter b _)
  | codeless hopened hbegins => exact .of_add hopened rfl (owners_add b _)
  | setDepth depth =>
    refine ⟨?_, ?_⟩
    · rw [owners_setDepth]
      exact id
    · rw [frames_setDepth]
      exact fun hf => ⟨_, hf, .refl _⟩
  | @settle s hopened hs =>
    cases hst : b.settlement with
    | none =>
      rw [settle_of_none hst]
      exact .refl b
    | some st =>
      exact .of_modify (frames_settle hst s) (owners_settle b s)
        fun f => f.sameCall_settle s st.needsOutput
  | own hopened => exact .of_push rfl rfl
  | @log i s topics hopened hs hran hkind =>
    unfold Progress.log
    split
    · exact ⟨id, fun hf => ⟨_, hf, .refl _⟩⟩
    · exact extends_modify b _ fun f => f.sameCall_log _
  | trail hclosed => exact .of_push rfl rfl
  | finishEmpty failed hnone =>
    exact .of_modify rfl rfl fun f => f.sameCall_status _

theorem Moves.extends (hmoves : Moves steps b b') : Extends b b' :=
  hmoves.preserves (P := Extends b) (fun hmove h => h.trans hmove.extends) (.refl b)

theorem extends_closed (tx : Transaction) {trace : Trace} {last : Step} {n : Nat}
    (hlast : trace.steps.back? = some last) (hn : n ≤ trace.steps.size) :
    Extends (reached tx trace.steps n) (closed tx trace) :=
  (moves_closed_reached hlast hn).extends

/-! ### Frames that have ended -/

theorem mem_line_of_close {ending : Ending} {id : Nat} (hid : id ∈ (b.close steps ending).line) :
    id ∈ b.line := by
  rw [line, opened_close] at hid
  exact List.mem_of_mem_tail (List.map_tail ▸ hid)

/-- Closing a frame changes no frame that is not open. -/
theorem frames_close_of_not_mem {ending : Ending} {id : Nat} (hid : id ∉ b.line) :
    (b.close steps ending).frames[id]? = b.frames[id]? := by
  cases hopened : b.opened with
  | nil => rw [close_of_nil ending hopened]
  | cons top outer =>
    rw [line_of_opened hopened, List.mem_cons, not_or] at hid
    rw [frames_close b hopened, Array.getElem?_modify, if_neg fun heq => hid.1 heq.symm]

/-- The frame that is closed has ended as was said. -/
theorem exists_of_closed {ending : Ending} {id : Nat} {f : Frame} (hid : id ∈ b.line)
    (hid' : id ∉ (b.close steps ending).line) (hf : (b.close steps ending).frames[id]? = some f) :
    ∃ g, b.frames[id]? = some g ∧ f = g.finish steps ending := by
  cases hopened : b.opened with
  | nil =>
    rw [line, hopened] at hid
    cases hid
  | cons top outer =>
    rw [line_of_opened hopened] at hid
    rw [line_close hopened] at hid'
    obtain rfl : id = top.id := (List.mem_cons.1 hid).resolve_right hid'
    rw [frames_close b hopened, Array.getElem?_modify, if_pos rfl] at hf
    obtain ⟨g, hg, rfl⟩ := Option.map_eq_some_iff.1 hf
    exact ⟨g, hg, rfl⟩

/-- The frame at `id` has ended, and is `f` but for what a later step told of it. -/
def Ended (f : Frame) (id : Nat) (b : Progress) : Prop :=
  id ∉ b.line ∧ ∃ f', b.frames[id]? = some f' ∧ f.SettlesTo f'

theorem Ended.congr {f : Frame} {id : Nat} (h : Ended f id b) (hframes : b'.frames[id]? = b.frames[id]?)
    (hline : b'.line = b.line) : Ended f id b' := by
  unfold Ended
  rw [hline, hframes]
  exact h

theorem Ended.ne_top {f : Frame} {id : Nat} (h : Ended f id b) {top : OpenFrame}
    {outer : List OpenFrame} (hopened : b.opened = top :: outer) : top.id ≠ id := by
  rintro rfl
  exact h.1 (line_of_opened hopened ▸ List.mem_cons_self)

theorem Ended.getElem?_add {f g : Frame} {id : Nat} (h : Ended f id b) (hopened : b.opened ≠ []) :
    (b.add g).frames[id]? = b.frames[id]? := by
  obtain ⟨top, outer, hcons⟩ := List.exists_cons_of_ne_nil hopened
  obtain ⟨f', hf', _⟩ := h.2
  have hne : id ≠ b.frames.size := Nat.ne_of_lt (Array.getElem?_eq_some_iff.1 hf').1
  rw [getElem?_frames_add b g hcons, if_neg hne, if_neg (h.ne_top hcons)]

/-- Once a step has run, a frame that has ended stays so. -/
theorem Move.ended (hmove : Move steps b b') (hran : 0 < b.owners.size) {f : Frame} {id : Nat}
    (h : Ended f id b) : Ended f id b' := by
  cases hmove with
  | record a => exact h.congr rfl rfl
  | @close ending hends =>
    cases hopened : b.opened with
    | nil =>
      rw [close_of_nil ending hopened]
      exact h
    | cons top outer =>
      refine ⟨fun hid => h.1 ?_, ?_⟩
      · rw [line_close hopened] at hid
        rw [line_of_opened hopened]
        exact List.mem_cons_of_mem _ hid
      · rw [frames_close b hopened, Array.getElem?_modify, if_neg (h.ne_top hopened)]
        exact h.2
  | @enter f hopened hbegins =>
    obtain ⟨top, outer, hcons⟩ := List.exists_cons_of_ne_nil hopened
    obtain ⟨f', hf', _⟩ := h.2
    refine ⟨?_, ?_⟩
    · rw [line_enter hcons, List.mem_cons, not_or]
      exact ⟨Nat.ne_of_lt (Array.getElem?_eq_some_iff.1 hf').1, h.1⟩
    · rw [frames_enter, h.getElem?_add hopened]
      exact h.2
  | codeless hopened hbegins => exact h.congr (h.getElem?_add hopened) (line_add b _)
  | setDepth depth => exact h.congr (by rw [frames_setDepth]) (line_setDepth b depth)
  | @settle s hopened hs =>
    cases hst : b.settlement with
    | none =>
      rw [settle_of_none hst]
      exact h
    | some st =>
      obtain ⟨f', hf', hsettles⟩ := h.2
      have hframes := frames_settle hst s
      refine ⟨by rw [line_settle]; exact h.1, _, hframes ▸ getElem?_modify_of_some hf', ?_⟩
      split
      · exact hsettles.trans rfl
      · exact hsettles
  | own hopened => exact h.congr rfl rfl
  | @log i s topics hopened hs hran hkind =>
    obtain ⟨top, outer, hcons⟩ := List.exists_cons_of_ne_nil hopened
    unfold Progress.log
    split
    · exact h.congr rfl rfl
    · refine h.congr ?_ rfl
      rw [hcons, modify, Array.getElem?_modify]
      exact if_neg (h.ne_top hcons)
  | trail hclosed => exact h.congr rfl rfl
  | finishEmpty failed hnone => exact absurd hnone (Nat.ne_of_gt hran)

theorem Moves.ended (hmoves : Moves steps b b') (hran : 0 < b.owners.size) {f : Frame} {id : Nat}
    (h : Ended f id b) : Ended f id b' := by
  have hpos {c : Progress} (hmoves : Moves steps b c) : 0 < c.owners.size := by
    have howner := hmoves.extends.owners (Array.getElem?_eq_getElem hran)
    exact Nat.lt_of_le_of_lt (Nat.zero_le _) (Array.getElem?_eq_some_iff.1 howner).1
  induction hmoves with
  | refl => exact h
  | tail hinit hlast ih => exact hlast.ended (hpos hinit) ih

end Progress

namespace CallTree

/-- A frame of the closed tree as it stands in the end: the outermost one extended over trailing
    steps, each with its name. -/
def finalFrame (tx : Transaction) (trace : Trace) (r : Registry) (id : Nat) (f : Frame) : Frame :=
  let f := if id = 0 then Progress.finishRoot trace (Progress.closed tx trace).trailing f else f
  { f with naming := (r.name id f).1 }

theorem frame?_named_ofTrace (tx : Transaction) (trace : Trace) (r : Registry) (id : Nat) :
    ((ofTrace tx trace).1.named r).1.frame? id =
      (Progress.closed tx trace).frames[id]?.map (finalFrame tx trace r id) := by
  rw [frames_named, frame?, Progress.frames_ofTrace, Array.getElem?_modify]
  unfold finalFrame
  by_cases hid : id = 0
  · rw [if_pos hid.symm, Option.map_map]
    simp only [if_pos hid]
    rfl
  · rw [if_neg fun heq => hid heq.symm]
    simp only [if_neg hid]

/-- The end of the trace gives every frame but the outermost one no more than its name. -/
theorem finalFrame_of_ne_zero (tx : Transaction) (trace : Trace) (r : Registry) {id : Nat}
    (hid : id ≠ 0) (f : Frame) :
    finalFrame tx trace r id f = { f with naming := (r.name id f).1 } := by
  unfold finalFrame
  rw [if_neg hid]

theorem sameCall_finalFrame (tx : Transaction) (trace : Trace) (r : Registry) (id : Nat) (f : Frame) :
    f.SameCall (finalFrame tx trace r id f) := by
  unfold finalFrame
  split
  · exact ⟨rfl, rfl, rfl, rfl, rfl, rfl, rfl⟩
  · exact ⟨rfl, rfl, rfl, rfl, rfl, rfl, rfl⟩

theorem status_finalFrame (tx : Transaction) (trace : Trace) (r : Registry) (id : Nat) (f : Frame) :
    (finalFrame tx trace r id f).status = f.status := by
  unfold finalFrame
  split
  · rfl
  · rfl

theorem size_frames_named_ofTrace (tx : Transaction) (trace : Trace) (r : Registry) :
    ((ofTrace tx trace).1.named r).1.frames.size = (Progress.closed tx trace).frames.size := by
  rw [← size_places, places_named, size_places, Progress.frames_ofTrace, Array.size_modify]

theorem owner?_named_ofTrace (tx : Transaction) (trace : Trace) (r : Registry) {i id : Nat}
    (h : (Progress.closed tx trace).owners[i]? = some id) :
    ((ofTrace tx trace).1.named r).1.owner? i = some id := by
  have hlt := (Progress.coherent_closed tx trace).ranged.owner_lt h
  rw [Progress.size_places, ← size_frames_named_ofTrace tx trace r] at hlt
  rw [owner?, owners_named, Progress.owners_ofTrace, h, Option.filter_some,
    if_pos (decide_eq_true hlt)]

end CallTree

end TxTrace

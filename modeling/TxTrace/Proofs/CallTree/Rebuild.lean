import TxTrace.Proofs.CallTree.Move
import TxTrace.Proofs.CallTree.Nesting

/-!
Building the tree of calls undoes the flattening of an execution (`CallTree.ofTrace_eq_tree`). The
frames that a callee leaves behind stand in one block, so its steps change a tree under construction
by a `Progress.grow`, and the steps of an execution by the composition of those of its parts.
-/

namespace TxTrace

/-- The frame with one more callee. -/
def Frame.addChild (id : Nat) (f : Frame) : Frame := { f with children := f.children.push id }

/-- The frame with more logs. -/
def Frame.addLogs (logs : List Log) (f : Frame) : Frame := { f with logs := f.logs ++ logs.toArray }

theorem Frame.context_addChild (id : Nat) (f : Frame) : (f.addChild id).context = f.context := rfl

theorem Frame.context_addLogs (logs : List Log) (f : Frame) :
    (f.addLogs logs).context = f.context := rfl

namespace Progress

variable {steps : Array Step} {b : Progress}

attribute [ext] Progress CallTree

/-- The frame at `id` changed by `g`, frames appended, and owners of steps. -/
def grow (b : Progress) (id : Nat) (g : Frame → Frame) (frames : List Frame) (owners : List Nat) :
    Progress :=
  { b with
    frames := b.frames.modify id g ++ frames.toArray
    owners := b.owners ++ owners.toArray
    frames_pos := by
      have hpos := b.frames_pos
      simp only [Array.size_append, Array.size_modify]
      omega }

@[simp]
theorem opened_grow (b : Progress) (id : Nat) (g : Frame → Frame) (frames : List Frame)
    (owners : List Nat) : (b.grow id g frames owners).opened = b.opened := rfl

@[simp]
theorem settlement_grow (b : Progress) (id : Nat) (g : Frame → Frame) (frames : List Frame)
    (owners : List Nat) : (b.grow id g frames owners).settlement = b.settlement := rfl

@[simp]
theorem size_frames_grow (b : Progress) (id : Nat) (g : Frame → Frame) (frames : List Frame)
    (owners : List Nat) :
    (b.grow id g frames owners).frames.size = b.frames.size + frames.length := by
  simp [grow]

theorem modify_of_id {α : Type} (xs : Array α) (i : Nat) {g : α → α} (hg : ∀ x, g x = x) :
    xs.modify i g = xs := by
  have hid : g = fun x => x := funext hg
  apply Array.ext_getElem?
  intro j
  rw [Array.getElem?_modify, hid]
  split
  · rw [Option.map_id']
  · rfl

theorem modify_append {α : Type} (xs ys : Array α) {i : Nat} (g : α → α) (hi : i < xs.size) :
    (xs ++ ys).modify i g = xs.modify i g ++ ys := by
  apply Array.ext_getElem?
  intro j
  simp only [Array.getElem?_modify, Array.getElem?_append, Array.size_modify]
  by_cases hj : j < xs.size
  · simp only [hj, if_true]
  · have hne : i ≠ j := by omega
    simp only [hj, hne, if_false]

theorem modify_modify {α : Type} (xs : Array α) (i : Nat) (g h : α → α) :
    (xs.modify i g).modify i h = xs.modify i (h ∘ g) := by
  apply Array.ext_getElem?
  intro j
  simp only [Array.getElem?_modify]
  split
  · rw [Option.map_map]
  · rfl

theorem modify_push {α : Type} {xs : Array α} {i : Nat} (x : α) (g : α → α) (hi : xs.size = i) :
    (xs.push x).modify i g = xs.push (g x) := by
  subst hi
  apply Array.ext_getElem?
  intro j
  simp only [Array.getElem?_modify, Array.getElem?_push]
  by_cases hj : xs.size = j
  · simp [hj]
  · have hj' : j ≠ xs.size := fun h => hj h.symm
    simp only [hj, hj', if_false]

/-- Growing twice from the same frame is growing once. -/
theorem grow_grow (b : Progress) {id : Nat} (g g' : Frame → Frame) (frames frames' : List Frame)
    (owners owners' : List Nat) (hid : id < b.frames.size) :
    (b.grow id g frames owners).grow id g' frames' owners' =
      b.grow id (g' ∘ g) (frames ++ frames') (owners ++ owners') := by
  apply Progress.ext
  case frames =>
    have hid' : id < (b.frames.modify id g).size := by simpa using hid
    simp only [grow, modify_append _ _ g' hid', modify_modify, Array.append_assoc,
      List.append_toArray]
  case owners => simp only [grow, Array.append_assoc, List.append_toArray]
  all_goals rfl

/-- What grows leaves the storage context alone, as long as the change to the frame does. -/
theorem context_grow {id depth : Nat} {outer : List OpenFrame} {g : Frame → Frame}
    (hopened : b.opened = ⟨id, depth⟩ :: outer) (hid : id < b.frames.size)
    (hg : ∀ f, (g f).context = f.context) (frames : List Frame) (owners : List Nat) :
    (b.grow id g frames owners).context = b.context := by
  have hf : b.frames[id]? = some b.frames[id] := Array.getElem?_eq_getElem hid
  simp only [context, hopened, List.head?_cons, Option.bind_some, grow,
    Array.getElem?_append, Array.size_modify, hid, if_true, Array.getElem?_modify, hf,
    Option.map_some, hg]

theorem own_eq_grow {id depth : Nat} {outer : List OpenFrame}
    (hopened : b.opened = ⟨id, depth⟩ :: outer) : b.own = b.grow id (fun f => f) [] [id] := by
  apply Progress.ext
  case frames =>
    simp only [own, grow, Array.append_empty]
    exact (modify_of_id _ _ fun _ => rfl).symm
  case owners =>
    simp only [own, grow, hopened, List.head?_cons, Option.map_some, Option.getD_some]
    rfl
  all_goals rfl

theorem modify_eq_grow (b : Progress) (id : Nat) (g : Frame → Frame) :
    b.modify id g = b.grow id g [] [] := by
  apply Progress.ext
  case frames => simp only [modify, grow, Array.append_empty]
  case owners => simp only [modify, grow, Array.append_empty]
  all_goals rfl

/-! ### One step of an execution -/

theorem step_of_depth {id depth : Nat} {outer : List OpenFrame} {s : Step}
    (hopened : b.opened = ⟨id, depth⟩ :: outer) (hdepth : s.depth = depth) (i : Nat) :
    b.step steps i s = (b.settle s).own.execute steps i s := by
  have hne : b.opened.isEmpty = false := by rw [hopened]; rfl
  unfold step
  rw [hne, hdepth, align_of_depth hopened]
  rfl

/-- What the first step tells of the frame that has just ended can be told before it. -/
theorem step_settle {id depth : Nat} {outer : List OpenFrame} {s : Step}
    (hopened : b.opened = ⟨id, depth⟩ :: outer) (hdepth : s.depth = depth) (i : Nat) :
    b.step steps i s = (b.settle s).step steps i s := by
  have hopened' : (b.settle s).opened = ⟨id, depth⟩ :: outer := by rw [opened_settle, hopened]
  rw [step_of_depth hopened hdepth, step_of_depth hopened' hdepth,
    settle_of_none (settlement_settle b s)]

theorem run_settle {id depth : Nat} {outer : List OpenFrame} {e : Nesting}
    (hopened : b.opened = ⟨id, depth⟩ :: outer) (he : e.WellFormed depth) (i : Nat) :
    run steps i e.steps b = run steps i e.steps (b.settle e.first) := by
  obtain ⟨l, hl⟩ := e.steps_eq_cons
  rw [hl, run, run, step_settle hopened he.depth_first]

theorem logOf?_isSome {s : Step} {topics : Nat} (h : topics + 2 ≤ s.stack.length) (i : Nat)
    (address : Address) : ∃ log, logOf? i s topics address = some log := by
  obtain ⟨offset, length, rest, hstack⟩ : ∃ offset length rest, s.stack = offset :: length :: rest := by
    match hs : s.stack with
    | [] => simp [hs] at h
    | [_] => simp [hs] at h
    | offset :: length :: rest => exact ⟨offset, length, rest, rfl⟩
  have hrest : topics ≤ rest.length := by
    rw [hstack, List.length_cons, List.length_cons] at h
    omega
  unfold logOf?
  simp only [hstack, if_pos hrest]
  exact ⟨_, rfl⟩

theorem modify_no_logs (b : Progress) (id : Nat) : b.modify id (.addLogs []) = b := by
  apply Progress.ext
  case frames =>
    refine modify_of_id _ _ fun f => ?_
    simp only [Frame.addLogs, Array.append_empty]
  all_goals rfl

/-- A step that neither makes a call nor ends its frame emits the log that it is, if it is one. -/
theorem execute_of_isPlain {id depth : Nat} {outer : List OpenFrame} {s : Step}
    (hopened : b.opened = ⟨id, depth⟩ :: outer) (hplain : s.IsPlain) (htopics : s.HoldsTopics)
    (i : Nat) :
    b.execute steps i s =
      b.modify id (.addLogs (s.log? i (b.context.getD 0)).toList) := by
  rcases hplain with hkind | ⟨topics, hkind⟩
  · simp only [execute, Step.log?, hkind, Option.toList_none, modify_no_logs]
  · obtain ⟨log, hlog⟩ := logOf?_isSome (htopics topics hkind) i (b.context.getD 0)
    simp only [execute, Step.log?, hkind, Progress.log, hlog, hopened, List.head?_cons,
      Option.map_some, Option.getD_some, Option.toList_some]
    rfl

/-- The tree after the last step of a frame: only a terminal instruction ends the frame at once. -/
def conclude (steps : Array Step) (s : Step) (i : Nat) (b : Progress) : Progress :=
  match s.kind with
  | .terminal _ => b.close steps (s.ending i)
  | _ => b

theorem terminate_eq_close {s : Step} {t : Terminal} (hkind : s.kind = .terminal t) (i : Nat)
    (b : Progress) : b.terminate steps i s t = b.close steps (s.ending i) := by
  unfold terminate Step.ending Step.endStatus Step.returned? Step.endError
  rw [hkind]
  cases t <;> rfl

/-- The last step of a frame emits its log, if it is one, and halts the frame or ends it. -/
theorem execute_closing {id depth : Nat} {outer : List OpenFrame} {s : Step} {i : Nat}
    (hopened : b.opened = ⟨id, depth⟩ :: outer) (htopics : s.HoldsTopics)
    (hends : s.IsTerminal ∨ s.error.isSome ∨ (steps[i + 1]?).any (·.depth < s.depth)) :
    b.execute steps i s =
      conclude steps s i (b.modify id (.addLogs (s.log? i (b.context.getD 0)).toList)) := by
  cases hkind : s.kind with
  | other =>
    rw [execute_of_isPlain hopened (.inl hkind) htopics, conclude, hkind]
  | log topics =>
    rw [execute_of_isPlain hopened (.inr ⟨topics, hkind⟩) htopics, conclude, hkind]
  | terminal t =>
    have hlog : s.log? i (b.context.getD 0) = none := by simp only [Step.log?, hkind]
    rw [hlog, Option.toList_none, modify_no_logs, conclude, execute, hkind]
    exact terminate_eq_close hkind i b
  | call type =>
    have hlog : s.log? i (b.context.getD 0) = none := by simp only [Step.log?, hkind]
    have hhalts : s.error.isSome ∨ (steps[i + 1]?).any (·.depth < s.depth) := by
      refine hends.resolve_left ?_
      rintro ⟨t, hterminal⟩
      rw [hkind] at hterminal
      cases hterminal
    rw [hlog, Option.toList_none, modify_no_logs, conclude, execute, hkind]
    exact call_eq_self hhalts

theorem checkOperands_of_makesCall {s : Step} {type : CallType} (hcall : s.MakesCall type) (i : Nat)
    (b : Progress) : b.checkOperands i s type = b := by
  obtain ⟨operands, hoperands⟩ := Option.isSome_iff_exists.1 hcall.operands
  unfold checkOperands
  rw [hoperands]
  rfl

/-- The frame that a call adds is the one that its caller calls. -/
theorem calledFrame_eq_calls {id depth : Nat} {outer : List OpenFrame}
    (hopened : b.opened = ⟨id, depth⟩ :: outer) (i : Nat) (s : Step) (type : CallType)
    (status : Status) :
    { b.calledFrame i s type with status, parent := some id, level := b.opened.length } =
      { Caller.calls ⟨id, outer.length, b.context⟩ i s type with status } := by
  rw [hopened]
  rfl

theorem frames_add_eq {id depth : Nat} {outer : List OpenFrame}
    (hopened : b.opened = ⟨id, depth⟩ :: outer) (f : Frame) :
    (b.add f).frames =
      (b.frames.modify id (.addChild b.frames.size)).push
        { f with parent := some id, level := b.opened.length } := by
  apply Array.ext_getElem?
  intro j
  rw [getElem?_frames_add b f hopened]
  simp only [Array.getElem?_push, Array.size_modify, Array.getElem?_modify]
  rfl

/-- A call that ran no code, after the next step of its caller has told how it ended. -/
theorem settle_execute_codeless {id depth : Nat} {outer : List OpenFrame} {s next : Step}
    {type : CallType} {i : Nat} (hopened : b.opened = ⟨id, depth⟩ :: outer)
    (hsettlement : b.settlement = none) (hcall : s.MakesCall type)
    (hnext : steps[i + 1]? = some next) (hdepth : next.depth = s.depth) :
    (b.execute steps i s).settle next =
      b.grow id (.addChild b.frames.size)
        [({ Caller.calls ⟨id, outer.length, b.context⟩ i s type with
            status := codelessStatus next } : Frame).settle next true] [] := by
  have hgoes : ¬ (s.error.isSome ∨ (steps[i + 1]?).any (·.depth < s.depth)) := by
    simp [hcall.error, hnext, hdepth]
  have hfilter : (steps[i + 1]?).filter (·.depth = s.depth) = some next := by
    simp [hnext, hdepth]
  have hexecute : b.execute steps i s =
      { b.add { b.calledFrame i s type with status := codelessStatus next } with
        settlement := some ⟨b.frames.size, true⟩ } := by
    rw [execute, hcall.kind]
    refine (call_eq_add hgoes hfilter).trans ?_
    rw [checkOperands_of_makesCall hcall]
  rw [hexecute]
  apply Progress.ext
  case frames =>
    have hsize : (b.frames.modify id (.addChild b.frames.size)).size = b.frames.size := by simp
    simp only [settle, modify, frames_add_eq hopened]
    rw [modify_push _ _ hsize, calledFrame_eq_calls hopened]
    rfl
  case opened => exact opened_add b _
  case owners => exact (owners_add b _).trans (Array.append_empty).symm
  case anomalies => exact anomalies_add b _
  case settlement => exact hsettlement.symm
  case trailing => exact trailing_add b _

/-- What the steps of a callee and the next step of its caller make of a tree: the frame of the callee
    and the frames that grew behind it. -/
theorem settle_close_grow_enter (steps : Array Step) {id depth : Nat} {outer : List OpenFrame}
    (hopened : b.opened = ⟨id, depth⟩ :: outer) (hsettlement : b.settlement = none) (f : Frame)
    (g : Frame → Frame) (frames : List Frame) (owners : List Nat) (ending : Ending) (s : Step) :
    ((((b.enter f).grow b.frames.size g frames owners).close steps ending).settle s) =
      b.grow id (.addChild b.frames.size)
        (((g { f with parent := some id, level := b.opened.length }).finish steps ending).settle s
          ending.output.isNone :: frames) owners := by
  have hopened' : ((b.enter f).grow b.frames.size g frames owners).opened =
      ⟨b.frames.size, depth + 1⟩ :: b.opened := by
    rw [opened_grow, opened_enter b f hopened]
  have hne : b.opened.isEmpty = false := by rw [hopened]; rfl
  have hsize : (b.frames.modify id (.addChild b.frames.size)).size = b.frames.size := by simp
  have hclosed : (((b.enter f).grow b.frames.size g frames owners).close steps ending).settlement =
      some ⟨b.frames.size, ending.output.isNone⟩ := by
    rw [settlement_close _ hopened', hne]
    rfl
  apply Progress.ext
  case frames =>
    have hlt : b.frames.size < ((b.frames.modify id (.addChild b.frames.size)).push
        (g { f with parent := some id, level := b.opened.length })).size := by simp
    simp only [settle, hclosed, modify, frames_close _ hopened']
    simp only [grow, frames_enter, frames_add_eq hopened]
    rw [modify_push _ _ hsize, modify_append _ _ _ hlt, modify_push _ _ hsize,
      modify_append _ _ _ (by simp), modify_push _ _ hsize]
    apply Array.ext'
    simp
  case opened =>
    rw [opened_settle, opened_close, hopened']
    rfl
  case owners =>
    rw [owners_settle, owners_close]
    simp only [grow, owners_enter]
  case anomalies =>
    rw [anomalies_settle, anomalies_close]
    exact anomalies_enter b f
  case settlement =>
    rw [settlement_settle]
    exact hsettlement.symm
  case trailing =>
    rw [trailing_settle, trailing_close]
    exact trailing_enter b f

/-! ### The steps of an execution -/

end Progress

/-- The frame with the callees and the logs of an execution. -/
def Nesting.extend (e : Nesting) (next i : Nat) (address : Address) (f : Frame) : Frame :=
  { f with
    children := f.children ++ (e.children next).toArray
    logs := f.logs ++ (e.logs i address).toArray }

namespace Progress

variable {steps : Array Step} {b : Progress}

/-- The tree after the steps of an execution, but for the end of the frame that executes it. -/
def inner (e : Nesting) (i id level : Nat) (b : Progress) : Progress :=
  b.grow id (e.extend b.frames.size i (b.context.getD 0))
    (e.frames ⟨id, level, b.context⟩ b.frames.size i) (e.owners id b.frames.size)

theorem inner_grow {id depth : Nat} {outer : List OpenFrame} {g : Frame → Frame}
    (hopened : b.opened = ⟨id, depth⟩ :: outer) (hid : id < b.frames.size)
    (hg : ∀ f, (g f).context = f.context) (frames : List Frame) (owners : List Nat) (e : Nesting)
    (i level : Nat) :
    inner e i id level (b.grow id g frames owners) =
      b.grow id (e.extend (b.frames.size + frames.length) i (b.context.getD 0) ∘ g)
        (frames ++ e.frames ⟨id, level, b.context⟩ (b.frames.size + frames.length) i)
        (owners ++ e.owners id (b.frames.size + frames.length)) := by
  rw [inner, context_grow hopened hid hg, size_frames_grow, grow_grow _ _ _ _ _ _ _ hid]

/-- An execution runs on after a plain step as one without it. -/
theorem inner_plain {id depth : Nat} {outer : List OpenFrame}
    (hopened : b.opened = ⟨id, depth⟩ :: outer) (hid : id < b.frames.size) (s : Step)
    (rest : Nesting) (i level : Nat) :
    inner rest (i + 1) id level
        (b.grow id (.addLogs (s.log? i (b.context.getD 0)).toList) [] [id]) =
      inner (.plain s rest) i id level b := by
  rw [inner_grow hopened hid (Frame.context_addLogs _)]
  have hextend : rest.extend b.frames.size (i + 1) (b.context.getD 0) ∘
        Frame.addLogs (s.log? i (b.context.getD 0)).toList =
      (Nesting.plain s rest).extend b.frames.size i (b.context.getD 0) := by
    funext f
    simp only [Function.comp_apply, Nesting.extend, Frame.addLogs, Nesting.children, Nesting.logs,
      Array.append_assoc, List.append_toArray]
  rw [inner, ← hextend]
  rfl

theorem inner_codeless {id depth : Nat} {outer : List OpenFrame}
    (hopened : b.opened = ⟨id, depth⟩ :: outer) (hid : id < b.frames.size) (type : CallType)
    (s : Step) (rest : Nesting) (i level : Nat) :
    inner rest (i + 1) id level
        (b.grow id (.addChild b.frames.size)
          [({ Caller.calls ⟨id, level, b.context⟩ i s type with
              status := codelessStatus rest.first } : Frame).settle rest.first true] [id]) =
      inner (.codeless type s rest) i id level b := by
  rw [inner_grow hopened hid (Frame.context_addChild _)]
  have hextend : rest.extend (b.frames.size + 1) (i + 1) (b.context.getD 0) ∘
        Frame.addChild b.frames.size =
      (Nesting.codeless type s rest).extend b.frames.size i (b.context.getD 0) := by
    funext f
    simp only [Function.comp_apply, Nesting.extend, Frame.addChild, Nesting.children, Nesting.logs]
    simp
  rw [inner, ← hextend]
  rfl

/-- The tree after a call of the frame `id` has run its steps and the frame has gone on with the step
    `next`. -/
def afterCall (callee : Nesting) (i id level : Nat) (s next : Step) (type : CallType) (b : Progress) :
    Progress :=
  let f := Caller.calls ⟨id, level, b.context⟩ i s type
  b.grow id (.addChild b.frames.size)
    ((callee.complete (b.frames.size + 1) (i + 1) f).settle next callee.closing.returned?.isNone ::
      callee.frames ⟨b.frames.size, f.level, f.context⟩ (b.frames.size + 1) (i + 1))
    (id :: callee.owners b.frames.size (b.frames.size + 1))

theorem inner_afterCall {id depth : Nat} {outer : List OpenFrame}
    (hopened : b.opened = ⟨id, depth⟩ :: outer) (hid : id < b.frames.size) (type : CallType)
    (s : Step) (callee rest : Nesting) (i level : Nat) :
    inner rest (i + 1 + callee.size) id level (b.afterCall callee i id level s rest.first type) =
      inner (.call type s callee rest) i id level b := by
  rw [afterCall, inner_grow hopened hid (Frame.context_addChild _), List.length_cons,
    Nesting.length_frames, Nat.add_comm callee.calls 1, ← Nat.add_assoc]
  have hextend : rest.extend (b.frames.size + 1 + callee.calls) (i + 1 + callee.size)
        (b.context.getD 0) ∘ Frame.addChild b.frames.size =
      (Nesting.call type s callee rest).extend b.frames.size i (b.context.getD 0) := by
    funext f
    simp only [Function.comp_apply, Nesting.extend, Frame.addChild, Nesting.children, Nesting.logs]
    simp
  rw [inner, ← hextend]
  rfl

theorem getElem?_of_steps {e : Nesting} {i : Nat} (hsteps : e.steps <+: steps.toList.drop i) :
    steps[i]? = some e.first := by
  obtain ⟨l, hl⟩ := e.steps_eq_cons
  obtain ⟨l', hl'⟩ := hsteps
  have hzero : (steps.toList.drop i)[0]? = some e.first := by
    rw [← hl', hl]
    rfl
  rw [List.getElem?_drop, Array.getElem?_toList] at hzero
  exact hzero

theorem getElem?_closing {e : Nesting} {i : Nat} (hsteps : e.steps <+: steps.toList.drop i) :
    steps[i + e.size - 1]? = some e.closing := by
  obtain ⟨l, hl⟩ := hsteps
  have hpos := e.size_pos
  have hlength : e.size = e.steps.length := rfl
  have hlt : e.size - 1 < e.steps.length := by omega
  have hdrop : (steps.toList.drop i)[e.size - 1]? = some e.closing := by
    rw [← hl, List.getElem?_append_left hlt, e.getElem?_steps_closing]
  have hadd : i + e.size - 1 = i + (e.size - 1) := by omega
  rw [List.getElem?_drop, Array.getElem?_toList] at hdrop
  rw [hadd, hdrop]

theorem steps_of_append {l l' : List Step} {i : Nat} (hsteps : l ++ l' <+: steps.toList.drop i) :
    l' <+: steps.toList.drop (i + l.length) := by
  obtain ⟨l'', hl⟩ := hsteps
  rw [← List.drop_drop, ← hl, List.append_assoc, List.drop_left]
  exact ⟨l'', rfl⟩

theorem steps_of_cons {s : Step} {l : List Step} {i : Nat} (hsteps : s :: l <+: steps.toList.drop i) :
    l <+: steps.toList.drop (i + 1) :=
  steps_of_append (l := [s]) hsteps

theorem steps_of_eq {e : Nesting} (hsteps : steps.toList = e.steps) :
    e.steps <+: steps.toList.drop 0 :=
  ⟨[], by rw [List.append_nil, List.drop_zero, hsteps]⟩

theorem conclude_of_not_isTerminal {s : Step} {i : Nat} (h : ¬ s.IsTerminal) :
    conclude steps s i b = b := by
  unfold conclude
  split
  · next t hkind => exact absurd ⟨t, hkind⟩ h
  · rfl

theorem ending_of_not_isTerminal {s : Step} {i : Nat} (h : ¬ s.IsTerminal) :
    s.ending i = ⟨some i, .invalid, some [], s.error⟩ := by
  unfold Step.ending Step.endStatus Step.returned? Step.endError
  cases hkind : s.kind with
  | terminal t => exact absurd ⟨t, hkind⟩ h
  | _ => rfl

/-- The next step of the caller ends a callee that has halted, if it has not ended by itself. -/
theorem step_conclude {id id' depth : Nat} {outer : List OpenFrame} {s next : Step} {j : Nat}
    (hopened : b.opened = ⟨id', depth + 1⟩ :: ⟨id, depth⟩ :: outer) (hs : steps[j]? = some s)
    (hdepth : next.depth = depth) :
    (conclude steps s j b).step steps (j + 1) next =
      (b.close steps (s.ending j)).step steps (j + 1) next := by
  have hclosed : (b.close steps (s.ending j)).opened = ⟨id, depth⟩ :: outer := by
    rw [opened_close, hopened]
    rfl
  by_cases hterminal : s.IsTerminal
  · obtain ⟨t, hkind⟩ := hterminal
    rw [conclude, hkind]
  · have hself : conclude steps s j b = b := conclude_of_not_isTerminal hterminal
    have hending : s.ending j = ⟨some j, .invalid, some [], s.error⟩ :=
      ending_of_not_isTerminal hterminal
    have halign : b.align steps (j + 1) depth = b.close steps (s.ending j) := by
      unfold align
      split
      · next hnil => simp [hopened] at hnil
      · next top rest hcons =>
        obtain ⟨rfl, rfl⟩ := List.cons.inj (hopened.symm.trans hcons)
        have hne : depth ≠ depth + 1 := by omega
        have hbefore : before (j + 1) = some j := by simp [before]
        rw [if_neg hne, if_pos ⟨rfl, by simp⟩, hbefore, Option.bind_some, hs, Option.bind_some]
        dsimp only
        rw [← hending]
        exact align_of_depth hclosed _
    have hne : b.opened.isEmpty = false := by rw [hopened]; rfl
    rw [hself, step_of_depth hclosed hdepth]
    unfold step
    rw [hne, hdepth, halign]
    rfl

/-- A caller goes on after a callee as if the frame of the callee had ended by itself and all had been
    told of it. -/
theorem run_returned {id id' depth : Nat} {outer : List OpenFrame} {callee rest : Nesting}
    {i level next : Nat} {b' : Progress}
    (hopened : b'.opened = ⟨id', depth + 1⟩ :: ⟨id, depth⟩ :: outer)
    (hsteps : callee.steps <+: steps.toList.drop i) (hrest : rest.WellFormed depth) :
    run steps (i + callee.size) rest.steps
        (conclude steps callee.closing (i + callee.size - 1) (inner callee i next level b')) =
      run steps (i + callee.size) rest.steps
        (((inner callee i next level b').close steps
          (callee.closing.ending (i + callee.size - 1))).settle rest.first) := by
  have hpos := callee.size_pos
  have hlast : i + callee.size - 1 + 1 = i + callee.size := by omega
  have hclosed : ((inner callee i next level b').close steps
      (callee.closing.ending (i + callee.size - 1))).opened = ⟨id, depth⟩ :: outer := by
    rw [opened_close, inner, opened_grow, hopened]
    rfl
  have hstep := step_conclude (b := inner callee i next level b') hopened (getElem?_closing hsteps)
    hrest.depth_first
  rw [hlast] at hstep
  obtain ⟨l, hl⟩ := rest.steps_eq_cons
  rw [← run_settle hclosed hrest, hl, run, run, hstep]

/-- A frame that has run its steps is complete when it ends. -/
theorem finish_extend {e : Nesting} {i : Nat} {f : Frame} (next : Nat)
    (hsteps : e.steps <+: steps.toList.drop i) (hstart : f.start = i) (hchildren : f.children = #[])
    (hlogs : f.logs = #[]) :
    (e.extend next i (f.context.getD 0) f).finish steps (e.closing.ending (i + e.size - 1)) =
      e.complete next i f := by
  have hfirst : steps[i]? = some e.first := getElem?_of_steps hsteps
  have hsize := e.size_pos
  have hlast : steps[i + e.size - 1]? = some e.closing := getElem?_closing hsteps
  have hstop : (some (i + e.size - 1)).filter (fun stop => decide (f.start ≤ stop)) =
      some (i + e.size - 1) := by
    have hle : f.start ≤ i + e.size - 1 := by omega
    simp [Option.filter, hle]
  have hgas : gasBetween steps f.start (some (i + e.size - 1)) = e.gasUsed := by
    rw [hstart]
    simp only [gasBetween, hfirst, Option.bind_some, hlast]
    rfl
  simp only [Frame.finish, Nesting.extend, Nesting.complete, Step.ending, hstop, hgas, hchildren,
    hlogs, Array.empty_append]

theorem context_enter {top : OpenFrame} {outer : List OpenFrame} (hopened : b.opened = top :: outer)
    (f : Frame) : (b.enter f).context = f.context := by
  rw [context, opened_enter b f hopened, List.head?_cons, Option.bind_some, frames_enter,
    getElem?_frames_add b f hopened, if_pos rfl, Option.bind_some]

theorem enter_own {id depth : Nat} {outer : List OpenFrame}
    (hopened : b.opened = ⟨id, depth⟩ :: outer) (f : Frame) :
    (b.own.enter f).opened = ⟨b.frames.size, depth + 1⟩ :: ⟨id, depth⟩ :: outer ∧
      b.frames.size < (b.own.enter f).frames.size ∧ (b.own.enter f).settlement = b.settlement := by
  have hown : b.own.opened = ⟨id, depth⟩ :: outer := hopened
  refine ⟨?_, ?_, settlement_enter b.own f⟩
  · rw [opened_enter _ _ hown, hown]
    rfl
  · rw [frames_enter, frames_add_eq hown, Array.size_push, Array.size_modify]
    exact Nat.lt_succ_self _

theorem closing_step {id depth : Nat} {outer : List OpenFrame} {s : Step} {i : Nat}
    (hopened : b.opened = ⟨id, depth⟩ :: outer) (hid : id < b.frames.size)
    (hsettlement : b.settlement = none) (hdepth : s.depth = depth) (htopics : s.HoldsTopics)
    (hends : s.IsTerminal ∨ s.error.isSome ∨ (steps[i + 1]?).any (·.depth < s.depth)) :
    b.step steps i s = conclude steps s i (inner (.halt s) i id outer.length b) := by
  have hown : b.own.opened = ⟨id, depth⟩ :: outer := hopened
  have hcontext : b.own.context = b.context := rfl
  have hextend : Frame.addLogs (s.log? i (b.context.getD 0)).toList ∘ (fun f => f) =
      (Nesting.halt s).extend b.frames.size i (b.context.getD 0) := by
    funext f
    simp only [Function.comp_apply, Nesting.extend, Frame.addLogs, Nesting.children, Nesting.logs,
      Array.append_empty]
  rw [step_of_depth hopened hdepth, settle_of_none hsettlement,
    execute_closing hown htopics hends, hcontext, modify_eq_grow, own_eq_grow hopened,
    grow_grow _ _ _ _ _ _ _ hid, hextend]
  rfl

theorem plain_step {id depth : Nat} {outer : List OpenFrame} {s : Step}
    (hopened : b.opened = ⟨id, depth⟩ :: outer) (hid : id < b.frames.size)
    (hsettlement : b.settlement = none) (hdepth : s.depth = depth) (hplain : s.IsPlain)
    (htopics : s.HoldsTopics) (i : Nat) :
    b.step steps i s = b.grow id (.addLogs (s.log? i (b.context.getD 0)).toList) [] [id] := by
  have hown : b.own.opened = ⟨id, depth⟩ :: outer := hopened
  have hcontext : b.own.context = b.context := rfl
  rw [step_of_depth hopened hdepth, settle_of_none hsettlement,
    execute_of_isPlain hown hplain htopics, hcontext, modify_eq_grow, own_eq_grow hopened,
    grow_grow _ _ _ _ _ _ _ hid]
  rfl

theorem codeless_step {id depth : Nat} {outer : List OpenFrame} {s next : Step} {type : CallType}
    {i : Nat} (hopened : b.opened = ⟨id, depth⟩ :: outer) (hid : id < b.frames.size)
    (hsettlement : b.settlement = none) (hdepth : s.depth = depth) (hcall : s.MakesCall type)
    (hnext : steps[i + 1]? = some next) (hdepth' : next.depth = depth) :
    (b.step steps i s).settle next =
      b.grow id (.addChild b.frames.size)
        [({ Caller.calls ⟨id, outer.length, b.context⟩ i s type with
            status := codelessStatus next } : Frame).settle next true] [id] := by
  have hown : b.own.opened = ⟨id, depth⟩ :: outer := hopened
  have hsize : b.own.frames.size = b.frames.size := rfl
  have hcontext : b.own.context = b.context := rfl
  rw [step_of_depth hopened hdepth, settle_of_none hsettlement,
    settle_execute_codeless hown hsettlement hcall hnext (hdepth'.trans hdepth.symm), hsize, hcontext,
    own_eq_grow hopened, grow_grow _ _ _ _ _ _ _ hid]
  rfl

theorem call_step {id depth : Nat} {outer : List OpenFrame} {s next : Step} {type : CallType}
    {i : Nat} (hopened : b.opened = ⟨id, depth⟩ :: outer) (hsettlement : b.settlement = none)
    (hdepth : s.depth = depth) (hcall : s.MakesCall type) (hnext : steps[i + 1]? = some next)
    (hdepth' : next.depth = depth + 1) :
    b.step steps i s = b.own.enter (b.calledFrame i s type) := by
  have hgoes : ¬ (s.error.isSome ∨ (steps[i + 1]?).any (·.depth < s.depth)) := by
    simp [hcall.error, hnext, hdepth, hdepth']
  have hfilter : (steps[i + 1]?).filter (·.depth = s.depth) = none := by
    simp [hnext, hdepth, hdepth']
  rw [step_of_depth hopened hdepth, settle_of_none hsettlement, execute, hcall.kind]
  refine (call_eq_enter hgoes hfilter).trans ?_
  rw [checkOperands_of_makesCall hcall]
  rfl

/-- What a callee leaves of a tree when its frame ends, with what the next step tells of it. -/
theorem settle_close_inner {id depth : Nat} {outer : List OpenFrame}
    (hopened : b.opened = ⟨id, depth⟩ :: outer) (hid : id < b.frames.size)
    (hsettlement : b.settlement = none) {callee : Nesting} {i : Nat}
    (hsteps : callee.steps <+: steps.toList.drop (i + 1)) (s next : Step) (type : CallType) :
    ((inner callee (i + 1) b.frames.size (outer.length + 1)
        (b.own.enter (b.calledFrame i s type))).close steps
          (callee.closing.ending (i + 1 + callee.size - 1))).settle next =
      b.afterCall callee i id outer.length s next type := by
  have hown : b.own.opened = ⟨id, depth⟩ :: outer := hopened
  have hsize : (b.own.enter (b.calledFrame i s type)).frames.size = b.frames.size + 1 := by
    rw [frames_enter, frames_add_eq hown, Array.size_push, Array.size_modify]
    rfl
  have hsize' : b.own.frames.size = b.frames.size := rfl
  have hcontext : (b.own.enter (b.calledFrame i s type)).context =
      (Caller.calls ⟨id, outer.length, b.context⟩ i s type).context := context_enter hown _
  have hframe : { b.calledFrame i s type with parent := some id, level := b.own.opened.length } =
      Caller.calls ⟨id, outer.length, b.context⟩ i s type := by
    rw [hown]
    rfl
  have hfinish := finish_extend (f := Caller.calls ⟨id, outer.length, b.context⟩ i s type)
    (b.frames.size + 1) hsteps rfl rfl rfl
  have hgrow := fun g frames owners ending =>
    settle_close_grow_enter steps hown hsettlement (b.calledFrame i s type) g frames owners ending next
  rw [hframe, hsize'] at hgrow
  rw [inner, hsize, hcontext, hgrow, hfinish, own_eq_grow hopened, grow_grow _ _ _ _ _ _ _ hid]
  rfl

/-- The steps of an execution, from a tree the innermost frame of which executes them. -/
theorem run_steps {depth : Nat} {e : Nesting} (he : e.WellFormed depth) {i id : Nat}
    {outer : List OpenFrame} (hsteps : e.steps <+: steps.toList.drop i)
    (hopened : b.opened = ⟨id, depth⟩ :: outer) (hid : id < b.frames.size)
    (hsettlement : b.settlement = none)
    (hends : e.closing.IsTerminal ∨ e.closing.error.isSome ∨
      (steps[i + e.size]?).any (·.depth < depth)) :
    run steps i e.steps b =
      conclude steps e.closing (i + e.size - 1) (inner e i id outer.length b) := by
  induction he generalizing i id outer b with
  | @halt depth s hdepth htopics =>
    rw [Nesting.steps, run, run]
    exact closing_step hopened hid hsettlement hdepth htopics (hdepth ▸ hends)
  | @plain depth s rest hdepth htopics hplain hrest ih =>
    have hsize : i + 1 + rest.size = i + (Nesting.plain s rest).size := by
      rw [Nesting.size_plain]
      omega
    have hstep : b.step steps i s = _ :=
      plain_step hopened hid hsettlement hdepth hplain htopics i
    have hid' : id < (b.step steps i s).frames.size := by
      rw [hstep, size_frames_grow]
      omega
    have hopened' : (b.step steps i s).opened = ⟨id, depth⟩ :: outer := by
      rw [hstep, opened_grow, hopened]
    have hsettlement' : (b.step steps i s).settlement = none := by
      rw [hstep, settlement_grow, hsettlement]
    have hrun := ih (steps_of_cons hsteps) hopened' hid' hsettlement' (hsize ▸ hends)
    rw [Nesting.steps, run, hrun, hstep, inner_plain hopened hid, hsize]
    rfl
  | @codeless depth type s rest hdepth hcall hrest ih =>
    have hsize : i + 1 + rest.size = i + (Nesting.codeless type s rest).size := by
      rw [Nesting.size_codeless]
      omega
    have hnext : steps[i + 1]? = some rest.first := getElem?_of_steps (steps_of_cons hsteps)
    have hstep := codeless_step hopened hid hsettlement hdepth hcall hnext hrest.depth_first
    have hopened' : ((b.step steps i s).settle rest.first).opened = ⟨id, depth⟩ :: outer := by
      rw [hstep, opened_grow, hopened]
    have hid' : id < ((b.step steps i s).settle rest.first).frames.size := by
      rw [hstep, size_frames_grow]
      omega
    have hrun := ih (steps_of_cons hsteps) hopened' hid' (settlement_settle _ _) (hsize ▸ hends)
    rw [opened_settle] at hopened'
    rw [Nesting.steps, run, run_settle hopened' hrest, hrun, hstep, inner_codeless hopened hid, hsize]
    rfl
  | @call depth type s callee rest hdepth hcall hcallee hrest ihcallee ihrest =>
    have hsize : i + 1 + callee.size + rest.size = i + (Nesting.call type s callee rest).size := by
      rw [Nesting.size_call]
      omega
    have hsteps' := steps_of_cons hsteps
    have hcalleeSteps : callee.steps <+: steps.toList.drop (i + 1) :=
      (List.prefix_append _ _).trans hsteps'
    have hrestSteps : rest.steps <+: steps.toList.drop (i + 1 + callee.size) := steps_of_append hsteps'
    have hstep := call_step hopened hsettlement hdepth hcall (getElem?_of_steps hcalleeSteps)
      hcallee.depth_first
    obtain ⟨hentered, hlt, hnone⟩ := enter_own hopened (b.calledFrame i s type)
    have hreturns : (steps[i + 1 + callee.size]?).any (·.depth < depth + 1) := by
      rw [getElem?_of_steps hrestSteps]
      simp [hrest.depth_first]
    have hcalleeRun := ihcallee hcalleeSteps hentered hlt (hnone.trans hsettlement)
      (.inr (.inr hreturns))
    have hid' : id < (b.afterCall callee i id outer.length s rest.first type).frames.size := by
      rw [afterCall, size_frames_grow]
      omega
    have hrestRun := ihrest (b := b.afterCall callee i id outer.length s rest.first type) hrestSteps
      hopened hid' hsettlement (hsize ▸ hends)
    calc run steps i (Nesting.call type s callee rest).steps b
        = run steps (i + 1 + callee.size) rest.steps
            (run steps (i + 1) callee.steps (b.own.enter (b.calledFrame i s type))) := by
          rw [Nesting.steps, run, run_append, hstep]
          rfl
      _ = run steps (i + 1 + callee.size) rest.steps
            (b.afterCall callee i id outer.length s rest.first type) := by
          rw [hcalleeRun, ← settle_close_inner hopened hid hsettlement hcalleeSteps]
          exact run_returned hentered hcalleeSteps hrest
      _ = conclude steps rest.closing (i + (Nesting.call type s callee rest).size - 1)
            (inner (.call type s callee rest) i id outer.length b) := by
          rw [hrestRun, inner_afterCall hopened hid, hsize]

/-! ### The end of the trace -/

/-- The execution of a transaction halts with an error that the machine tells, or has ended. -/
theorem finishError_conclude {id : Nat} {s : Step} (hopened : b.opened = [⟨id, s.depth⟩])
    (hlast : steps.back? = some s) (hends : s.IsTerminal ∨ s.error.isSome) :
    (conclude steps s (steps.size - 1) b).finishError steps =
      b.close steps (s.ending (steps.size - 1)) := by
  by_cases hterminal : s.IsTerminal
  · obtain ⟨t, hkind⟩ := hterminal
    have hclosed : (b.close steps (s.ending (steps.size - 1))).opened = [] := by
      rw [opened_close, hopened]
      rfl
    rw [conclude, hkind]
    unfold finishError
    rw [hclosed]
  · have hself : conclude steps s (steps.size - 1) b = b := conclude_of_not_isTerminal hterminal
    rw [hself, ending_of_not_isTerminal hterminal]
    unfold finishError
    rw [hopened, hlast]
    exact if_pos ⟨hends.resolve_left hterminal, rfl⟩

theorem context_ofTransaction (tx : Transaction) (steps : Array Step) :
    (ofTransaction tx steps).context = tx.target := rfl

/-- The tree when the steps of a whole execution have run and its frame has ended. -/
theorem closed_eq_close_inner {tx : Transaction} {trace : Trace} {e : Nesting} {depth : Nat}
    (he : e.IsTransaction depth) (hsteps : trace.steps.toList = e.steps)
    (hopened : (ofTransaction tx trace.steps).opened = [⟨0, depth⟩]) :
    closed tx trace =
      (inner e 0 0 0 (ofTransaction tx trace.steps)).close trace.steps
        (e.closing.ending (e.size - 1)) := by
  have hprefix := steps_of_eq hsteps
  have hsize : trace.steps.size = e.size := by
    rw [← Array.length_toList, hsteps]
    rfl
  have hlast : trace.steps.back? = some e.closing := by
    have hclosing := getElem?_closing hprefix
    rw [Array.back?_eq_getElem?, hsize, ← hclosing, Nat.zero_add]
  have hrun := run_steps he.wellFormed hprefix hopened
    (by simp [ofTransaction]) rfl (he.ends.imp_right .inl)
  rw [Nat.zero_add, ← hsteps] at hrun
  have hinner : (inner e 0 0 0 (ofTransaction tx trace.steps)).opened = [⟨0, e.closing.depth⟩] := by
    rw [he.wellFormed.depth_closing]
    exact hopened
  have herror := finishError_conclude hinner hlast he.ends
  rw [hsize] at herror
  have hended : ((inner e 0 0 0 (ofTransaction tx trace.steps)).close trace.steps
      (e.closing.ending (e.size - 1))).opened.isEmpty = true := by
    rw [opened_close, hinner]
    rfl
  have hsome : trace.steps.isEmpty = false := by
    have hpos := e.size_pos
    rw [Array.isEmpty_eq_false_iff, ← Array.size_pos_iff]
    omega
  unfold closed
  dsimp only
  rw [hsome, hrun]
  simp only [Bool.false_eq_true, if_false]
  rw [List.length_nil, herror]
  unfold finishOpen
  rw [if_pos hended]

/-- The frames of a whole execution, before the end of the trace adds what the node said of it. -/
theorem frames_close_inner {tx : Transaction} {e : Nesting} {depth : Nat}
    (hopened : (ofTransaction tx steps).opened = [⟨0, depth⟩]) (hsteps : steps.toList = e.steps) :
    ((inner e 0 0 0 (ofTransaction tx steps)).close steps (e.closing.ending (e.size - 1))).frames =
      (e.complete 1 0 (Nesting.opening tx) :: e.frames ⟨0, 0, tx.target⟩ 1 0).toArray := by
  have hprefix := steps_of_eq hsteps
  have hopened' : (inner e 0 0 0 (ofTransaction tx steps)).opened = [⟨0, depth⟩] := hopened
  have hframes : (ofTransaction tx steps).frames = #[].push (Nesting.opening tx) := rfl
  have hfinish := finish_extend (f := Nesting.opening tx) 1 hprefix rfl rfl rfl
  rw [Nat.zero_add] at hfinish
  have hcontext : (Nesting.opening tx).context = tx.target := rfl
  rw [hcontext] at hfinish
  rw [frames_close _ hopened', inner, grow, context_ofTransaction]
  dsimp only
  have hzero : (#[] : Array Frame).size = 0 := rfl
  have hone : (#[].push (Nesting.opening tx)).size = 1 := rfl
  rw [hframes, modify_push _ _ hzero, modify_append _ _ _ (by simp), modify_push _ _ hzero, hone,
    hfinish]
  apply Array.ext'
  simp

end Progress

namespace CallTree

/-- Building a tree from the steps of a well formed execution, whatever calls are nested in it, gives
    back its frames, and no step contradicts another. -/
theorem ofTrace_eq_tree (tx : Transaction) (trace : Trace) {e : Nesting} {depth : Nat}
    (he : e.IsTransaction depth) (hsteps : trace.steps.toList = e.steps) :
    ofTrace tx trace = (e.tree tx trace.returnValue, #[]) := by
  have hprefix := Progress.steps_of_eq hsteps
  have hopened : (Progress.ofTransaction tx trace.steps).opened = [⟨0, depth⟩] := by
    have hfirst := Progress.getElem?_of_steps hprefix
    simp only [Progress.ofTransaction, hfirst, Option.map_some, Option.getD_some,
      he.wellFormed.depth_first]
  have hclosed := Progress.closed_eq_close_inner he hsteps hopened
  have htrailing : (Progress.closed tx trace).trailing = none := by
    rw [hclosed, Progress.trailing_close]
    rfl
  refine Prod.ext (CallTree.ext ?_ ?_) ?_
  · rw [Progress.frames_ofTrace, htrailing, hclosed, Progress.frames_close_inner hopened hsteps]
    rfl
  · rw [Progress.owners_ofTrace, hclosed, Progress.owners_close]
    simp only [Progress.inner, Progress.grow, Progress.ofTransaction, Array.empty_append]
    rfl
  · rw [Progress.anomalies_ofTrace, htrailing, hclosed, Progress.anomalies_close]
    rfl

/-- A call that creates a contract in vain and reverts, and a call that runs no code. -/
def revertedCall : Nesting :=
  .plain ⟨0, "PUSH1", 1, 1000, 3, [], none, none, none, none⟩
    (.call .call ⟨2, "CALL", 1, 997, 100, [500, 0xcc, 7, 0, 0, 0, 0], none, none, none, none⟩
      (.plain ⟨0, "LOG1", 2, 500, 8, [0, 0, 0xee], none, none, none, none⟩
        (.call .create ⟨1, "CREATE", 2, 492, 32, [0, 0, 0], none, none, none, none⟩
          (.halt ⟨0, "SSTORE", 3, 300, 300, [0, 1], none, none, none, some "out of gas"⟩)
          (.halt ⟨2, "REVERT", 2, 150, 0, [0, 0], none, none, none, none⟩)))
      (.codeless .staticCall ⟨3, "STATICCALL", 1, 140, 40, [90, 1, 0, 0, 0, 0], none, none, none, none⟩
        (.halt ⟨4, "STOP", 1, 100, 0, [1], none, none, none, none⟩)))

theorem ofTrace_eq_tree_revertedCall :
    revertedCall.IsTransaction 1 ∧
      ofTrace ⟨none, 0xee, some 0xbb, [], 0, 0, 0, none, none⟩
          ⟨revertedCall.steps.toArray, [], none, none, none, by decide +kernel⟩ =
        (revertedCall.tree ⟨none, 0xee, some 0xbb, [], 0, 0, 0, none, none⟩ none, #[]) := by
  have he : revertedCall.IsTransaction 1 := by decide +kernel
  exact ⟨he, ofTrace_eq_tree _ _ he rfl⟩

end CallTree

end TxTrace

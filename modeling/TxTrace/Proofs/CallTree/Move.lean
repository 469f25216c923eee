import Mathlib.Logic.Relation
import TxTrace.CallTree.Build

/-!
The changes that steps make to a tree under construction. `Move` lists them once, each with what the
trace shows when it is made, and `moves_closed` says that a whole trace makes nothing but moves. An
invariant of trees is therefore proved move by move.
-/

namespace TxTrace.Progress

variable {steps : Array Step}

/-! ### What an operation leaves alone -/

@[simp]
theorem owners_record (b : Progress) (a : Anomaly) : (b.record a).owners = b.owners := rfl

@[simp]
theorem owners_modify (b : Progress) (id : Nat) (g : Frame → Frame) :
    (b.modify id g).owners = b.owners := rfl

@[simp]
theorem opened_modify (b : Progress) (id : Nat) (g : Frame → Frame) :
    (b.modify id g).opened = b.opened := rfl

@[simp]
theorem trailing_modify (b : Progress) (id : Nat) (g : Frame → Frame) :
    (b.modify id g).trailing = b.trailing := rfl

@[simp]
theorem size_frames_modify (b : Progress) (id : Nat) (g : Frame → Frame) :
    (b.modify id g).frames.size = b.frames.size := by
  simp [modify]

theorem frames_close (b : Progress) {ending : Ending} {top : OpenFrame} {outer : List OpenFrame}
    (hopened : b.opened = top :: outer) :
    (b.close steps ending).frames = b.frames.modify top.id (·.finish steps ending) := by
  unfold close
  rw [hopened]
  rfl

theorem settlement_close (b : Progress) {ending : Ending} {top : OpenFrame}
    {outer : List OpenFrame} (hopened : b.opened = top :: outer) :
    (b.close steps ending).settlement =
      if outer.isEmpty then b.settlement else some ⟨top.id, ending.output.isNone⟩ := by
  unfold close
  rw [hopened]
  rfl

theorem close_of_nil {b : Progress} (ending : Ending) (hclosed : b.opened = []) :
    b.close steps ending = b := by
  unfold close
  rw [hclosed]

theorem size_frames_close (b : Progress) (ending : Ending) :
    (b.close steps ending).frames.size = b.frames.size := by
  cases hopened : b.opened with
  | nil => rw [close_of_nil ending hopened]
  | cons top outer => rw [frames_close b hopened, Array.size_modify]

@[simp]
theorem owners_close (b : Progress) (ending : Ending) :
    (b.close steps ending).owners = b.owners := by
  unfold close
  split <;> rfl

@[simp]
theorem trailing_close (b : Progress) (ending : Ending) :
    (b.close steps ending).trailing = b.trailing := by
  unfold close
  split <;> rfl

@[simp]
theorem anomalies_close (b : Progress) (ending : Ending) :
    (b.close steps ending).anomalies = b.anomalies := by
  unfold close
  split <;> rfl

theorem getElem?_frames_add (b : Progress) (f : Frame) {top : OpenFrame} {outer : List OpenFrame}
    (hopened : b.opened = top :: outer) (id : Nat) :
    (b.add f).frames[id]? =
      if id = b.frames.size then
        some { f with parent := some top.id, level := b.opened.length }
      else if top.id = id then
        b.frames[id]?.map fun g => { g with children := g.children.push b.frames.size }
      else b.frames[id]? := by
  simp only [add, hopened, modify, Array.getElem?_push, Array.size_modify, Array.getElem?_modify]

/-- What a change keeps of every frame, it keeps of those of the tree. -/
theorem exists_of_frames_modify {R : Frame → Frame → Prop} {frames : Array Frame} {id i : Nat}
    {g : Frame → Frame} {f' : Frame} (hf' : (frames.modify id g)[i]? = some f')
    (hrefl : ∀ f, R f f) (hg : ∀ f, R f (g f)) : ∃ f, frames[i]? = some f ∧ R f f' := by
  rw [Array.getElem?_modify] at hf'
  split at hf'
  · obtain ⟨f, hf, rfl⟩ := Option.map_eq_some_iff.1 hf'
    exact ⟨f, hf, hg f⟩
  · exact ⟨f', hf', hrefl f'⟩

/-- Of the frames that were there, an added one changes at most the children. -/
theorem exists_of_frames_add {R : Frame → Frame → Prop} {b : Progress} {f f' : Frame}
    {top : OpenFrame} {outer : List OpenFrame} {id : Nat} (hopened : b.opened = top :: outer)
    (hf' : (b.add f).frames[id]? = some f') (hrefl : ∀ f, R f f)
    (hchildren : ∀ (f : Frame) (children : Array Nat), R f { f with children }) :
    (∃ g, b.frames[id]? = some g ∧ R g f') ∨
      id = b.frames.size ∧ f' = { f with parent := some top.id, level := b.opened.length } := by
  rw [getElem?_frames_add b f hopened] at hf'
  split at hf'
  · next hid => exact .inr ⟨hid, (Option.some.inj hf').symm⟩
  · split at hf'
    · obtain ⟨g, hg, rfl⟩ := Option.map_eq_some_iff.1 hf'
      exact .inl ⟨g, hg, hchildren g _⟩
    · exact .inl ⟨f', hf', hrefl f'⟩

theorem size_frames_add (b : Progress) (f : Frame) (hopened : b.opened ≠ []) :
    (b.add f).frames.size = b.frames.size + 1 := by
  obtain ⟨top, outer, hcons⟩ := List.exists_cons_of_ne_nil hopened
  simp [add, hcons, modify]

@[simp]
theorem settlement_add (b : Progress) (f : Frame) : (b.add f).settlement = b.settlement := by
  unfold add
  split <;> rfl

@[simp]
theorem owners_add (b : Progress) (f : Frame) : (b.add f).owners = b.owners := by
  unfold add
  split <;> rfl

@[simp]
theorem opened_add (b : Progress) (f : Frame) : (b.add f).opened = b.opened := by
  unfold add
  split
  · rfl
  · simp [modify]

@[simp]
theorem trailing_add (b : Progress) (f : Frame) : (b.add f).trailing = b.trailing := by
  unfold add
  split <;> rfl

@[simp]
theorem anomalies_add (b : Progress) (f : Frame) : (b.add f).anomalies = b.anomalies := by
  unfold add
  split <;> rfl

@[simp]
theorem frames_enter (b : Progress) (f : Frame) : (b.enter f).frames = (b.add f).frames := by
  unfold enter
  split
  · next hclosed => simp [add, hclosed]
  · rfl

theorem opened_enter (b : Progress) (f : Frame) {top : OpenFrame} {outer : List OpenFrame}
    (hopened : b.opened = top :: outer) :
    (b.enter f).opened = ⟨b.frames.size, top.depth + 1⟩ :: b.opened := by
  unfold enter
  rw [hopened]

@[simp]
theorem settlement_enter (b : Progress) (f : Frame) :
    (b.enter f).settlement = b.settlement := by
  unfold enter
  split
  · rfl
  · exact settlement_add b f

@[simp]
theorem owners_enter (b : Progress) (f : Frame) : (b.enter f).owners = b.owners := by
  unfold enter
  split
  · rfl
  · exact owners_add b f

@[simp]
theorem trailing_enter (b : Progress) (f : Frame) : (b.enter f).trailing = b.trailing := by
  unfold enter
  split
  · rfl
  · exact trailing_add b f

@[simp]
theorem anomalies_enter (b : Progress) (f : Frame) : (b.enter f).anomalies = b.anomalies := by
  unfold enter
  split
  · rfl
  · exact anomalies_add b f

@[simp]
theorem owners_setDepth (b : Progress) (depth : Nat) : (b.setDepth depth).owners = b.owners := by
  unfold setDepth
  split <;> rfl

@[simp]
theorem frames_setDepth (b : Progress) (depth : Nat) : (b.setDepth depth).frames = b.frames := by
  unfold setDepth
  split <;> rfl

@[simp]
theorem settlement_setDepth (b : Progress) (depth : Nat) :
    (b.setDepth depth).settlement = b.settlement := by
  unfold setDepth
  split <;> rfl

@[simp]
theorem trailing_setDepth (b : Progress) (depth : Nat) :
    (b.setDepth depth).trailing = b.trailing := by
  unfold setDepth
  split <;> rfl

theorem settle_of_none {b : Progress} (hsettlement : b.settlement = none) (s : Step) :
    b.settle s = b := by
  unfold settle
  rw [hsettlement]

theorem frames_settle {b : Progress} {st : Settlement} (hsettlement : b.settlement = some st)
    (s : Step) : (b.settle s).frames = b.frames.modify st.id (·.settle s st.needsOutput) := by
  unfold settle
  rw [hsettlement]
  rfl

/-- A frame after a settlement is as it was, or as the step settles it. -/
theorem exists_of_frames_settle {b : Progress} {s : Step} {id : Nat} {f' : Frame}
    (hf' : (b.settle s).frames[id]? = some f') :
    ∃ f, b.frames[id]? = some f ∧
      (f' = f ∨ ∃ st, b.settlement = some st ∧ st.id = id ∧ f' = f.settle s st.needsOutput) := by
  cases hst : b.settlement with
  | none =>
    rw [settle_of_none hst] at hf'
    exact ⟨f', hf', .inl rfl⟩
  | some st =>
    rw [frames_settle hst, Array.getElem?_modify] at hf'
    split at hf'
    · next hid =>
      obtain ⟨f, hf, rfl⟩ := Option.map_eq_some_iff.1 hf'
      exact ⟨f, hf, .inr ⟨st, rfl, hid, rfl⟩⟩
    · exact ⟨f', hf', .inl rfl⟩

@[simp]
theorem settlement_settle (b : Progress) (s : Step) : (b.settle s).settlement = none := by
  unfold settle
  split
  · next hnone => exact hnone
  · rfl

@[simp]
theorem owners_settle (b : Progress) (s : Step) : (b.settle s).owners = b.owners := by
  unfold settle
  split <;> rfl

@[simp]
theorem opened_settle (b : Progress) (s : Step) : (b.settle s).opened = b.opened := by
  unfold settle
  split <;> rfl

@[simp]
theorem trailing_settle (b : Progress) (s : Step) : (b.settle s).trailing = b.trailing := by
  unfold settle
  split <;> rfl

@[simp]
theorem anomalies_settle (b : Progress) (s : Step) : (b.settle s).anomalies = b.anomalies := by
  unfold settle
  split <;> rfl

@[simp]
theorem size_owners_own (b : Progress) : b.own.owners.size = b.owners.size + 1 := by
  simp [own]

@[simp]
theorem owners_log (b : Progress) (i : Nat) (s : Step) (topics : Nat) :
    (b.log i s topics).owners = b.owners := by
  unfold log
  split <;> rfl

@[simp]
theorem opened_log (b : Progress) (i : Nat) (s : Step) (topics : Nat) :
    (b.log i s topics).opened = b.opened := by
  unfold log
  split <;> rfl

@[simp]
theorem trailing_log (b : Progress) (i : Nat) (s : Step) (topics : Nat) :
    (b.log i s topics).trailing = b.trailing := by
  unfold log
  split <;> rfl

@[simp]
theorem size_owners_trail (b : Progress) (i : Nat) :
    (b.trail i).owners.size = b.owners.size + 1 := by
  simp [trail]

/-! ### Moves -/

/-- How the innermost frame can end, by what the trace shows after as many steps as have owners. -/
inductive Ends (steps : Array Step) (b : Progress) : Ending → Prop
  /-- The next step runs one level above a frame that has a caller. -/
  | halted {s : Step} {top : OpenFrame} {outer : List OpenFrame}
      (hs : steps[b.owners.size]? = some s) (hopened : b.opened = top :: outer)
      (houter : outer ≠ []) (hdepth : s.depth + 1 = top.depth) :
      Ends steps b ⟨before b.owners.size, .invalid, some [],
        (before b.owners.size).bind fun p => steps[p]?.bind (·.error)⟩
  /-- The next step runs somewhere else, or there is none. -/
  | lost : Ends steps b ⟨before b.owners.size, .unknown, none, none⟩
  /-- The last step is a terminal instruction. -/
  | terminated {i : Nat} {s : Step} {t : Terminal} (hs : steps[i]? = some s)
      (hran : b.owners.size = i + 1) (hkind : s.kind = .terminal t) :
      Ends steps b ⟨some i, terminalStatus t, terminalOutput s t,
        if t = .invalid then s.error else none⟩
  /-- The trace ends with an error in the frame. -/
  | failed {last : Step} {top : OpenFrame} {outer : List OpenFrame}
      (hlast : steps.back? = some last) (hran : b.owners.size = steps.size)
      (hopened : b.opened = top :: outer) (herror : last.error.isSome)
      (hdepth : top.depth = last.depth) :
      Ends steps b ⟨some (steps.size - 1), .invalid, some [], last.error⟩

/-- A frame ends with the step that ran last. -/
theorem Ends.stop_eq {b : Progress} {ending : Ending} (h : Ends steps b ending) :
    ending.stop = before b.owners.size := by
  cases h with
  | halted => rfl
  | lost => rfl
  | terminated hs hran hkind => simp [before, hran]
  | failed hlast hran hopened herror hdepth =>
    have hne : steps.size ≠ 0 := by
      intro hzero
      simp [Array.size_eq_zero_iff.1 hzero] at hlast
    simp [before, hran, hne]

/-- How a frame can begin, by what the trace shows after as many steps as have owners. -/
inductive Begins (steps : Array Step) (b : Progress) : Frame → Prop
  /-- The next step runs deeper than the frames that are open, and no call was seen. -/
  | unseen : Begins steps b
      { parent := none, callType := .call, level := 0, start := b.owners.size }
  /-- The last step is a call. -/
  | called {i : Nat} {s : Step} {type : CallType} (status : Status) (hs : steps[i]? = some s)
      (hran : b.owners.size = i + 1) (hkind : s.kind = .call type) :
      Begins steps b { b.calledFrame i s type with status }

/-- A change that the steps of a trace, or its end, can make to a tree under construction, as long as
    frames are open or steps follow. -/
inductive Move (steps : Array Step) : Progress → Progress → Prop
  | record (b : Progress) (a : Anomaly) : Move steps b (b.record a)
  | close (b : Progress) {ending : Ending} (hends : Ends steps b ending) :
      Move steps b (b.close steps ending)
  | enter (b : Progress) {f : Frame} (hopened : b.opened ≠ []) (hbegins : Begins steps b f) :
      Move steps b (b.enter f)
  | codeless (b : Progress) {f : Frame} (hopened : b.opened ≠ []) (hbegins : Begins steps b f) :
      Move steps b { b.add f with settlement := some ⟨b.frames.size, true⟩ }
  | setDepth (b : Progress) (depth : Nat) : Move steps b (b.setDepth depth)
  | settle (b : Progress) {s : Step} (hopened : b.opened ≠ [])
      (hs : steps[b.owners.size]? = some s) : Move steps b (b.settle s)
  | own (b : Progress) (hopened : b.opened ≠ []) : Move steps b b.own
  | log (b : Progress) {i : Nat} {s : Step} {topics : Nat} (hopened : b.opened ≠ [])
      (hs : steps[i]? = some s) (hran : b.owners.size = i + 1) (hkind : s.kind = .log topics) :
      Move steps b (b.log i s topics)
  | trail (b : Progress) (hclosed : b.opened = []) : Move steps b (b.trail b.owners.size)
  | finishEmpty (b : Progress) (failed : Option Bool) (hnone : b.owners.size = 0) :
      Move steps b (b.finishEmpty failed)

/-- Any number of moves. -/
abbrev Moves (steps : Array Step) : Progress → Progress → Prop := Relation.ReflTransGen (Move steps)

theorem Move.moves {b b' : Progress} (h : Move steps b b') : Moves steps b b' := .single h

/-- What one move preserves, any number of them preserves. -/
theorem Moves.preserves {P : Progress → Prop} {b b' : Progress} (h : Moves steps b b')
    (hmove : ∀ {b b'}, Move steps b b' → P b → P b') (hb : P b) : P b' := by
  induction h with
  | refl => exact hb
  | tail _ hlast ih => exact hmove hlast ih

/-! ### The moves of a step -/

theorem owners_closeAbove (i depth : Nat) (b : Progress) :
    (b.closeAbove steps i depth).owners = b.owners := by
  fun_induction closeAbove steps i depth b with
  | case1 b top next rest hopened hlt ih => rw [ih, owners_close]
  | case2 => rfl
  | case3 => rfl

theorem closeAbove_ne_nil {i depth : Nat} {b : Progress} (hb : b.opened ≠ []) :
    (b.closeAbove steps i depth).opened ≠ [] := by
  fun_induction closeAbove steps i depth b with
  | case1 b top next rest hopened hlt ih => exact ih (by simp [hopened])
  | case2 => exact hb
  | case3 => exact hb

theorem enter_ne_nil (b : Progress) (f : Frame) (hb : b.opened ≠ []) : (b.enter f).opened ≠ [] := by
  unfold enter
  split
  · exact hb
  · simp

theorem owners_enterUnseen (i count : Nat) (b : Progress) :
    (b.enterUnseen i count).owners = b.owners := by
  induction count generalizing b with
  | zero => rfl
  | succ count ih => rw [enterUnseen, ih, owners_enter]

theorem enterUnseen_ne_nil (i count : Nat) (b : Progress) (hb : b.opened ≠ []) :
    (b.enterUnseen i count).opened ≠ [] := by
  induction count generalizing b with
  | zero => exact hb
  | succ count ih => exact ih _ (enter_ne_nil b _ hb)

theorem setDepth_ne_nil {b : Progress} (depth : Nat) (hb : b.opened ≠ []) :
    (b.setDepth depth).opened ≠ [] := by
  unfold setDepth
  split <;> simp_all

theorem owners_realign (i source depth : Nat) (b : Progress) :
    (b.realign steps i source depth).owners = b.owners := by
  unfold realign
  rw [owners_setDepth]
  split
  · exact owners_closeAbove i depth b
  · exact owners_enterUnseen i _ b

theorem realign_ne_nil {i source depth : Nat} {b : Progress} (hb : b.opened ≠ []) :
    (b.realign steps i source depth).opened ≠ [] := by
  unfold realign
  apply setDepth_ne_nil
  split
  · exact closeAbove_ne_nil hb
  · exact enterUnseen_ne_nil i _ b hb

theorem owners_align (i depth : Nat) (b : Progress) :
    (b.align steps i depth).owners = b.owners := by
  fun_induction align steps i depth b with
  | case1 => rfl
  | case2 => rfl
  | case3 b top rest hopened hne hhalt error ih => rw [ih, owners_close]
  | case4 b top rest hopened hne hhalt => rw [owners_realign, owners_record]

theorem align_ne_nil {i depth : Nat} {b : Progress} (hb : b.opened ≠ []) :
    (b.align steps i depth).opened ≠ [] := by
  fun_induction align steps i depth b with
  | case1 => exact hb
  | case2 => exact hb
  | case3 b top rest hopened hne hhalt error ih => exact ih (by simp [hopened, hhalt.2])
  | case4 b top rest hopened hne hhalt => exact realign_ne_nil (by simp [hopened])

theorem align_of_depth {b : Progress} {id depth : Nat} {outer : List OpenFrame}
    (hopened : b.opened = ⟨id, depth⟩ :: outer) (i : Nat) : b.align steps i depth = b := by
  unfold align
  split
  · rfl
  · next top rest hcons =>
    obtain ⟨rfl, rfl⟩ := List.cons.inj (hopened.symm.trans hcons)
    rw [if_pos rfl]

theorem closeAbove_preserves {P : Progress → Prop} {b : Progress} {depth : Nat}
    (hclose : ∀ {b ending}, Ends steps b ending → P b → P (b.close steps ending)) (h : P b) :
    P (b.closeAbove steps b.owners.size depth) := by
  generalize hi : b.owners.size = i
  fun_induction closeAbove steps i depth b with
  | case1 b top next rest hopened hlt ih =>
    have hends : Ends steps b ⟨before i, .unknown, none, none⟩ := hi ▸ .lost
    exact ih (hclose hends h) (by simpa using hi)
  | case2 => exact h
  | case3 => exact h

theorem enterUnseen_preserves {P : Progress → Prop} {b : Progress} {count : Nat}
    (henter : ∀ {b f}, b.opened ≠ [] → Begins steps b f → P b → P (b.enter f))
    (hopened : b.opened ≠ []) (h : P b) : P (b.enterUnseen b.owners.size count) := by
  induction count generalizing b with
  | zero => exact h
  | succ count ih =>
    have hrest := ih (enter_ne_nil b _ hopened) (henter hopened .unseen h)
    rw [owners_enter] at hrest
    exact hrest

/-- What the opening and the closing of frames keep, and anomalies and depths do not concern, holds of
    the tree that is brought to the depth of a step. -/
theorem align_preserves {P : Progress → Prop} {b : Progress} {s : Step}
    (hs : steps[b.owners.size]? = some s)
    (hclose : ∀ {b ending}, Ends steps b ending → P b → P (b.close steps ending))
    (henter : ∀ {b f}, b.opened ≠ [] → Begins steps b f → P b → P (b.enter f))
    (hset : ∀ {b}, P b → P (b.setDepth s.depth)) (hrecord : ∀ {b a}, P b → P (b.record a))
    (h : P b) : P (b.align steps b.owners.size s.depth) := by
  generalize hi : b.owners.size = i
  generalize hd : s.depth = depth at hset
  fun_induction align steps i depth b with
  | case1 => exact h
  | case2 => exact h
  | case3 b top rest hopened hne hhalt error ih =>
    have hends : Ends steps b ⟨before i, .invalid, some [], error⟩ := by
      have hhalted := Ends.halted hs hopened hhalt.2 (by rw [hd]; exact hhalt.1)
      simpa only [hi] using hhalted
    exact ih (by simpa using hs) (hclose hends h) (by simpa using hi)
  | case4 b top rest hopened hne hhalt =>
    subst hi
    unfold realign
    apply hset
    split
    · exact closeAbove_preserves (b := b.record _) hclose (hrecord h)
    · exact enterUnseen_preserves (b := b.record _) henter (by simp [hopened]) (hrecord h)

theorem moves_align {s : Step} (b : Progress) (hs : steps[b.owners.size]? = some s) :
    Moves steps b (b.align steps b.owners.size s.depth) := by
  apply align_preserves hs
  · intro _ _ hends h
    exact h.tail (.close _ hends)
  · intro _ _ hopened hbegins h
    exact h.tail (.enter _ hopened hbegins)
  · intro _ h
    exact h.tail (.setDepth _ _)
  · intro _ _ h
    exact h.tail (.record _ _)
  · exact .refl

/-- The tree with an anomaly when the operands of a call are missing. -/
def checkOperands (i : Nat) (s : Step) (type : CallType) (b : Progress) : Progress :=
  if (Operands.ofStack? type s.stack).isNone then b.record (.missingOperands i s.op) else b

@[simp]
theorem opened_checkOperands (i : Nat) (s : Step) (type : CallType) (b : Progress) :
    (b.checkOperands i s type).opened = b.opened := by
  unfold checkOperands
  split <;> rfl

@[simp]
theorem frames_checkOperands (i : Nat) (s : Step) (type : CallType) (b : Progress) :
    (b.checkOperands i s type).frames = b.frames := by
  unfold checkOperands
  split <;> rfl

@[simp]
theorem owners_checkOperands (i : Nat) (s : Step) (type : CallType) (b : Progress) :
    (b.checkOperands i s type).owners = b.owners := by
  unfold checkOperands
  split <;> rfl

theorem calledFrame_checkOperands (i : Nat) (s : Step) (type : CallType) (b : Progress) :
    (b.checkOperands i s type).calledFrame i s type = b.calledFrame i s type := by
  simp only [calledFrame, context, opened_checkOperands, frames_checkOperands]

/-- A call that halted its caller opens nothing. -/
theorem call_eq_self {i : Nat} {s : Step} {type : CallType} {b : Progress}
    (h : s.error.isSome ∨ (steps[i + 1]?).any (·.depth < s.depth)) :
    b.call steps i s type = b := by
  unfold call
  exact if_pos h

/-- A call whose next step runs at the same depth adds a frame that ran no code. -/
theorem call_eq_add {i : Nat} {s next : Step} {type : CallType} {b : Progress}
    (h : ¬ (s.error.isSome ∨ (steps[i + 1]?).any (·.depth < s.depth)))
    (hnext : (steps[i + 1]?).filter (·.depth = s.depth) = some next) :
    b.call steps i s type =
      { (b.checkOperands i s type).add
          { b.calledFrame i s type with status := codelessStatus next } with
        settlement := some ⟨b.frames.size, true⟩ } := by
  have hsize : (b.checkOperands i s type).frames.size = b.frames.size := by simp
  unfold call
  dsimp only
  rw [if_neg h, hnext, ← hsize]
  rfl

/-- Any other call opens a frame. -/
theorem call_eq_enter {i : Nat} {s : Step} {type : CallType} {b : Progress}
    (h : ¬ (s.error.isSome ∨ (steps[i + 1]?).any (·.depth < s.depth)))
    (hnext : (steps[i + 1]?).filter (·.depth = s.depth) = none) :
    b.call steps i s type = (b.checkOperands i s type).enter (b.calledFrame i s type) := by
  unfold call
  dsimp only
  rw [if_neg h, hnext]
  rfl

theorem owners_call (i : Nat) (s : Step) (type : CallType) (b : Progress) :
    (b.call steps i s type).owners = b.owners := by
  by_cases h : s.error.isSome ∨ (steps[i + 1]?).any (·.depth < s.depth)
  · rw [call_eq_self h]
  · cases hnext : (steps[i + 1]?).filter (·.depth = s.depth) with
    | some next => rw [call_eq_add h hnext]; simp
    | none => rw [call_eq_enter h hnext]; simp

/-- What the opening of frames keeps, with code or without, and anomalies do not concern, holds after a
    call. -/
theorem call_preserves {P : Progress → Prop} {b : Progress} {i : Nat} {s : Step} {type : CallType}
    (hopened : b.opened ≠ []) (hs : steps[i]? = some s) (hran : b.owners.size = i + 1)
    (hkind : s.kind = .call type) (hrecord : ∀ {b a}, P b → P (b.record a))
    (henter : ∀ {b f}, b.opened ≠ [] → Begins steps b f → P b → P (b.enter f))
    (hcodeless : ∀ {b f}, b.opened ≠ [] → Begins steps b f → P b →
      P { b.add f with settlement := some ⟨b.frames.size, true⟩ })
    (h : P b) : P (b.call steps i s type) := by
  by_cases hhalts : s.error.isSome ∨ (steps[i + 1]?).any (·.depth < s.depth)
  · rw [call_eq_self hhalts]
    exact h
  · have hchecked : P (b.checkOperands i s type) := by
      unfold checkOperands
      split
      · exact hrecord h
      · exact h
    have hopened' : (b.checkOperands i s type).opened ≠ [] := by simpa using hopened
    have hran' : (b.checkOperands i s type).owners.size = i + 1 := by simpa using hran
    have hbegins (status : Status) : Begins steps (b.checkOperands i s type)
        { b.calledFrame i s type with status } := by
      rw [← calledFrame_checkOperands]
      exact .called status hs hran' hkind
    cases hnext : (steps[i + 1]?).filter (·.depth = s.depth) with
    | some next =>
      have hadd := hcodeless hopened' (hbegins (codelessStatus next)) hchecked
      rw [frames_checkOperands] at hadd
      rw [call_eq_add hhalts hnext]
      exact hadd
    | none =>
      rw [call_eq_enter hhalts hnext]
      exact henter hopened' (hbegins .unknown) hchecked

theorem moves_call {i : Nat} {s : Step} {type : CallType} (b : Progress) (hb : b.opened ≠ [])
    (hs : steps[i]? = some s) (hran : b.owners.size = i + 1) (hkind : s.kind = .call type) :
    Moves steps b (b.call steps i s type) := by
  apply call_preserves hb hs hran hkind
  · intro _ _ h
    exact h.tail (.record _ _)
  · intro _ _ hopened hbegins h
    exact h.tail (.enter _ hopened hbegins)
  · intro _ _ hopened hbegins h
    exact h.tail (.codeless _ hopened hbegins)
  · exact .refl

theorem owners_execute (i : Nat) (s : Step) (b : Progress) :
    (b.execute steps i s).owners = b.owners := by
  unfold execute
  split
  · exact owners_call i s _ b
  · exact owners_close b _
  · exact owners_log b i s _
  · rfl

theorem moves_execute {i : Nat} {s : Step} (b : Progress) (hb : b.opened ≠ [])
    (hs : steps[i]? = some s) (hran : b.owners.size = i + 1) :
    Moves steps b (b.execute steps i s) := by
  unfold execute
  split
  · next type hkind => exact moves_call b hb hs hran hkind
  · next t hkind => exact (Move.close b (.terminated hs hran hkind)).moves
  · next topics hkind => exact (Move.log b hb hs hran hkind).moves
  · exact .refl

theorem size_owners_step (i : Nat) (s : Step) (b : Progress) :
    (b.step steps i s).owners.size = b.owners.size + 1 := by
  unfold step
  split
  · exact size_owners_trail b i
  · rw [owners_execute, size_owners_own, owners_settle, owners_align]

theorem moves_step {s : Step} (b : Progress) (hs : steps[b.owners.size]? = some s) :
    Moves steps b (b.step steps b.owners.size s) := by
  unfold step
  split
  · next hclosed => exact (Move.trail b (List.isEmpty_iff.1 hclosed)).moves
  · next hopened =>
    have hne : (b.align steps b.owners.size s.depth).opened ≠ [] :=
      align_ne_nil (by simpa [List.isEmpty_iff] using hopened)
    have hran : (b.align steps b.owners.size s.depth).owners.size = b.owners.size := by
      rw [owners_align]
    have hne' : ((b.align steps b.owners.size s.depth).settle s).opened ≠ [] := by
      rw [opened_settle]
      exact hne
    refine (moves_align b hs).trans ?_
    refine .head (.settle _ hne (by rw [hran]; exact hs)) ?_
    refine .head (.own _ hne') ?_
    exact moves_execute _ hne' hs (by rw [size_owners_own, owners_settle, hran])

/-! ### The moves of a trace -/

theorem run_append (l l' : List Step) (i : Nat) (b : Progress) :
    run steps i (l ++ l') b = run steps (i + l.length) l' (run steps i l b) := by
  induction l generalizing i b with
  | nil => rfl
  | cons s l ih =>
    rw [List.cons_append, run, run, ih, List.length_cons]
    congr 1
    omega

theorem size_owners_run (i : Nat) (rest : List Step) (b : Progress) :
    (b.run steps i rest).owners.size = b.owners.size + rest.length := by
  induction rest generalizing i b with
  | nil => rfl
  | cons s rest ih => rw [run, ih, size_owners_step, List.length_cons]; omega

/-- As many steps have owners as were run. -/
theorem size_owners_run_ofTransaction (tx : Transaction) (steps : Array Step) :
    ((ofTransaction tx steps).run steps 0 steps.toList).owners.size = steps.size := by
  rw [size_owners_run, Array.length_toList]
  exact Nat.zero_add _

theorem moves_run {i : Nat} {rest : List Step} (b : Progress) (hrest : steps.toList.drop i = rest)
    (hran : b.owners.size = i) : Moves steps b (b.run steps i rest) := by
  induction rest generalizing i b with
  | nil => exact .refl
  | cons s rest ih =>
    have hs : steps[b.owners.size]? = some s := by
      rw [hran, ← Array.getElem?_toList, ← List.head?_drop, hrest]
      rfl
    have htail : steps.toList.drop (i + 1) = rest := by
      rw [← List.tail_drop, hrest, List.tail_cons]
    subst hran
    exact (moves_step b hs).trans (ih _ htail (size_owners_step _ s b))

theorem owners_finishError (b : Progress) : (b.finishError steps).owners = b.owners := by
  unfold finishError
  split
  · split
    · exact owners_close b _
    · rfl
  · rfl

theorem moves_finishError (b : Progress) (hran : b.owners.size = steps.size) :
    Moves steps b (b.finishError steps) := by
  unfold finishError
  split
  · next top outer last hopened hlast =>
    split
    · next herror =>
      exact (Move.close b (.failed hlast hran hopened herror.1 herror.2)).moves
    · exact .refl
  · exact .refl

theorem opened_closeAll (b : Progress) : (b.closeAll steps).opened = [] := by
  fun_induction closeAll steps b with
  | case1 b hopened => exact hopened
  | case2 b top rest hopened ih => exact ih

theorem moves_closeAll (b : Progress) (hran : b.owners.size = steps.size) :
    Moves steps b (b.closeAll steps) := by
  fun_induction closeAll steps b with
  | case1 => exact .refl
  | case2 b top rest hopened ih =>
    have hends : Ends steps b ⟨before steps.size, .unknown, none, none⟩ := hran ▸ .lost
    exact .head (.close b hends) (ih (by simpa using hran))

/-- No frame is open once the end of the trace was seen. -/
theorem opened_finishOpen (b : Progress) : (b.finishOpen steps).opened = [] := by
  unfold finishOpen
  split
  · next hclosed => exact List.isEmpty_iff.1 hclosed
  · exact opened_closeAll b

theorem moves_finishOpen (b : Progress) (hran : b.owners.size = steps.size) :
    Moves steps b (b.finishOpen steps) := by
  unfold finishOpen
  split
  · exact .refl
  · exact (moves_closeAll b hran).tail (.record _ _)

/-- The tree when the last step has run and no frame is open any more. -/
def closed (tx : Transaction) (trace : Trace) : Progress :=
  let b := (ofTransaction tx trace.steps).run trace.steps 0 trace.steps.toList
  let b := if trace.steps.isEmpty then b.finishEmpty trace.failed else b
  (b.finishError trace.steps).finishOpen trace.steps

theorem opened_closed (tx : Transaction) (trace : Trace) : (closed tx trace).opened = [] :=
  opened_finishOpen _

theorem owners_closeAll (b : Progress) : (b.closeAll steps).owners = b.owners := by
  fun_induction closeAll steps b with
  | case1 => rfl
  | case2 b top rest hopened ih => rw [ih, owners_close]

theorem owners_finishOpen (b : Progress) : (b.finishOpen steps).owners = b.owners := by
  unfold finishOpen
  split
  · rfl
  · exact owners_closeAll b

theorem size_owners_closed (tx : Transaction) (trace : Trace) :
    (closed tx trace).owners.size = trace.steps.size := by
  unfold closed
  dsimp only
  rw [owners_finishOpen, owners_finishError, ← size_owners_run_ofTransaction tx trace.steps]
  split <;> rfl

theorem moves_closed (tx : Transaction) (trace : Trace) :
    Moves trace.steps (ofTransaction tx trace.steps) (closed tx trace) := by
  have hrun : Moves trace.steps (ofTransaction tx trace.steps)
      ((ofTransaction tx trace.steps).run trace.steps 0 trace.steps.toList) :=
    moves_run _ rfl rfl
  have hran := size_owners_run_ofTransaction tx trace.steps
  unfold closed
  dsimp only
  split
  · next hempty =>
    have hzero : trace.steps.size = 0 := by simpa using hempty
    have hran' : (((ofTransaction tx trace.steps).run trace.steps 0
        trace.steps.toList).finishEmpty trace.failed).owners.size = trace.steps.size := hran
    refine (hrun.tail (.finishEmpty _ trace.failed (hran.trans hzero))).trans ?_
    refine (moves_finishError _ hran').trans (moves_finishOpen _ ?_)
    rw [owners_finishError]
    exact hran'
  · refine hrun.trans ((moves_finishError _ hran).trans (moves_finishOpen _ ?_))
    rw [owners_finishError]
    exact hran

/-- The outermost frame as the end of the trace leaves it: it extends over the steps after its end,
    and returns what the node said if nothing else is known. -/
def finishRoot (trace : Trace) (trailing : Option (Nat × Nat)) (root : Frame) : Frame :=
  let stop := (trailing.map fun (first, count) => first + count - 1).or root.stop
  { root with
    stop
    gasUsed := if trailing.isSome then gasBetween trace.steps root.start stop else root.gasUsed
    output := if root.output.isEmpty then trace.returnValue.getD [] else root.output }

/-- The end of the trace changes the outermost frame alone. -/
theorem frames_ofTrace (tx : Transaction) (trace : Trace) :
    (CallTree.ofTrace tx trace).1.frames =
      (closed tx trace).frames.modify 0 (finishRoot trace (closed tx trace).trailing) := by
  have hend : (CallTree.ofTrace tx trace).1.frames =
      (((closed tx trace).finishTrailing trace.steps).finishOutput trace.returnValue).frames := rfl
  rw [hend]
  apply Array.ext_getElem?
  intro id
  simp only [finishOutput, finishTrailing, modify, record]
  split
  · next hnone =>
    simp only [Array.getElem?_modify, hnone]
    split <;> rfl
  · next first count hsome =>
    simp only [Array.getElem?_modify, hsome]
    split
    · rw [Option.map_map]
      rfl
    · rfl

theorem owners_ofTrace (tx : Transaction) (trace : Trace) :
    (CallTree.ofTrace tx trace).1.owners = (closed tx trace).owners := by
  have hend : (CallTree.ofTrace tx trace).1.owners =
      (((closed tx trace).finishTrailing trace.steps).finishOutput trace.returnValue).owners := rfl
  rw [hend]
  unfold finishOutput finishTrailing
  split <;> rfl

/-- Steps after the end of the outermost frame are the last anomaly. -/
theorem anomalies_ofTrace (tx : Transaction) (trace : Trace) :
    (CallTree.ofTrace tx trace).2 =
      (closed tx trace).anomalies ++
        ((closed tx trace).trailing.map fun (first, count) =>
          Anomaly.trailingSteps first count).toList.toArray := by
  have hend : (CallTree.ofTrace tx trace).2 =
      (((closed tx trace).finishTrailing trace.steps).finishOutput trace.returnValue).anomalies := rfl
  rw [hend]
  unfold finishOutput finishTrailing
  split
  · next hnone =>
    rw [hnone]
    exact (Array.append_empty).symm
  · next first count hsome =>
    rw [hsome]
    rfl

end TxTrace.Progress

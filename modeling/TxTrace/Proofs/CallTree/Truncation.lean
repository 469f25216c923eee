import TxTrace.Proofs.CallTree.Persistence
import TxTrace.Proofs.CallTree.Standing

/-!
Truncated traces. A run reads the steps that it has come to and looks at the one after them
(`Progress.reached_congr`), so the runs of a trace and of a longer one differ first where the last
step of the shorter one makes a call. What the shorter one knows of a frame that has ended, the longer
one knows as well (`CallTree.persists_of_append`).
-/

namespace TxTrace

namespace Progress

variable {tx : Transaction} {steps steps' : Array Step} {n : Nat} {b : Progress}

/-- The first `n` steps are the same. -/
def Agree (n : Nat) (steps steps' : Array Step) : Prop := ∀ i < n, steps[i]? = steps'[i]?

theorem agree_append {rest : Array Step} (h : steps' = steps ++ rest) :
    Agree steps.size steps steps' := by
  intro i hi
  rw [h, Array.getElem?_append_left hi]

/-! ### What a step reads -/

theorem finish_congr (h : Agree n steps steps') {ending : Ending}
    (hstop : ∀ j, ending.stop = some j → j < n) (f : Frame) :
    f.finish steps ending = f.finish steps' ending := by
  have hgas : gasBetween steps f.start (ending.stop.filter (f.start ≤ ·)) =
      gasBetween steps' f.start (ending.stop.filter (f.start ≤ ·)) := by
    cases hlast : ending.stop.filter (f.start ≤ ·) with
    | none => simp [gasBetween]
    | some j =>
      obtain ⟨hj, hle⟩ := Option.filter_eq_some_iff.1 hlast
      have hlt := hstop j hj
      rw [decide_eq_true_eq] at hle
      unfold gasBetween
      rw [Option.bind_some, Option.bind_some, h j hlt, h f.start (Nat.lt_of_le_of_lt hle hlt)]
  unfold Frame.finish
  dsimp only
  rw [hgas]

theorem close_congr (h : Agree n steps steps') {ending : Ending}
    (hstop : ∀ j, ending.stop = some j → j < n) (b : Progress) :
    b.close steps ending = b.close steps' ending := by
  have hfinish : Frame.finish steps ending = Frame.finish steps' ending :=
    funext fun f => finish_congr h hstop f
  unfold close
  rw [hfinish]

theorem lt_of_before {i j : Nat} (hi : i ≤ n) (h : before i = some j) : j < n := by
  unfold before at h
  split at h
  · cases h
  · have := Option.some.inj h
    omega

theorem closeAbove_of_lt {i depth : Nat} {top next : OpenFrame} {rest : List OpenFrame}
    (hopened : b.opened = top :: next :: rest) (hlt : depth < top.depth) :
    b.closeAbove steps i depth =
      closeAbove steps i depth (b.close steps ⟨before i, .unknown, none, none⟩) := by
  rw [closeAbove.eq_def steps i depth b]
  split
  · next top' next' rest' hcons =>
    obtain ⟨rfl, _⟩ := List.cons.inj (hopened.symm.trans hcons)
    rw [if_pos hlt]
  · next hshort => exact absurd hopened (hshort top next rest)

theorem closeAbove_of_not_lt {i depth : Nat}
    (h : ∀ {top next : OpenFrame} {rest : List OpenFrame}, b.opened = top :: next :: rest →
      ¬ depth < top.depth) : b.closeAbove steps i depth = b := by
  rw [closeAbove.eq_def steps i depth b]
  split
  · next top next rest hcons => rw [if_neg (h hcons)]
  · rfl

theorem closeAbove_congr (h : Agree n steps steps') {i : Nat} (hi : i ≤ n) (depth : Nat)
    (b : Progress) : b.closeAbove steps i depth = b.closeAbove steps' i depth := by
  fun_induction closeAbove steps i depth b with
  | case1 b top next rest hopened hlt ih =>
    rw [ih, close_congr h (fun j hj => lt_of_before hi hj), closeAbove_of_lt hopened hlt]
  | case2 b top next rest hopened hge =>
    rw [closeAbove_of_not_lt]
    intro top' next' rest' hopened'
    obtain ⟨rfl, _⟩ := List.cons.inj (hopened.symm.trans hopened')
    exact hge
  | case3 b hshort =>
    rw [closeAbove_of_not_lt]
    exact fun hopened => absurd hopened (hshort _ _ _)

theorem realign_congr (h : Agree n steps steps') {i : Nat} (hi : i ≤ n) (source depth : Nat)
    (b : Progress) : b.realign steps i source depth = b.realign steps' i source depth := by
  unfold realign
  rw [closeAbove_congr h hi]

theorem align_congr (h : Agree n steps steps') {i : Nat} (hi : i ≤ n) (depth : Nat) (b : Progress) :
    b.align steps i depth = b.align steps' i depth := by
  have herror : ((before i).bind fun p => steps[p]?.bind (·.error)) =
      (before i).bind fun p => steps'[p]?.bind (·.error) := by
    cases hbefore : before i with
    | none => rfl
    | some j => rw [Option.bind_some, Option.bind_some, h j (lt_of_before hi hbefore)]
  fun_induction align steps i depth b with
  | case1 b hclosed =>
    rw [align]
    split
    · rfl
    · next hcons => simp [hclosed] at hcons
  | case2 b top rest hopened hdepth => rw [align_of_depth (hopened.trans (by rw [hdepth]))]
  | case3 b top rest hopened hne hhalt error ih =>
    rw [ih, close_congr h (fun j hj => lt_of_before hi hj), align_of_halted hopened hhalt.1 hhalt.2,
      ← herror]
  | case4 b top rest hopened hne hhalt =>
    rw [realign_congr h hi, align_of_jumped hopened hne hhalt]

theorem arrive_congr (h : Agree n steps steps') {i : Nat} (hi : i ≤ n) (s : Step) (b : Progress) :
    b.arrive steps i s = b.arrive steps' i s := by
  unfold arrive
  rw [align_congr h hi]

/-- Only a call looks at the step after it. -/
theorem execute_congr (h : Agree n steps steps') {i : Nat} (hi : i < n) {s : Step}
    (hnext : i + 1 < n ∨ ∀ type, s.kind ≠ .call type) (b : Progress) :
    b.execute steps i s = b.execute steps' i s := by
  unfold execute
  split
  · next type hkind =>
    have hlt : i + 1 < n := hnext.resolve_right fun hnot => hnot type hkind
    unfold call
    rw [h (i + 1) hlt]
  · next t hkind =>
    refine close_congr h (fun j hj => ?_) b
    obtain rfl := Option.some.inj hj
    exact hi
  · rfl
  · rfl

theorem step_congr (h : Agree n steps steps') {i : Nat} (hi : i + 1 < n) (s : Step) (b : Progress) :
    b.step steps i s = b.step steps' i s := by
  by_cases hopened : b.opened = []
  · rw [step_eq_trail hopened, step_eq_trail hopened]
  · rw [step_eq_execute hopened, step_eq_execute hopened, arrive_congr h (by omega),
      execute_congr h (by omega) (.inl hi)]

/-- Traces that begin alike lead to the same tree up to the last step that they share. -/
theorem reached_congr (h : Agree n steps steps') (hn : n ≤ steps.size) {k : Nat} (hk : k < n) :
    reached tx steps k = reached tx steps' k := by
  induction k with
  | zero =>
    have hfirst := h 0 hk
    rw [reached_zero, reached_zero, ofTransaction, ofTransaction, hfirst]
  | succ k ih =>
    have hs : steps[k]? = some steps[k] := Array.getElem?_eq_getElem (by omega)
    have hs' := (h k (by omega)).symm.trans hs
    rw [reached_succ hs, reached_succ hs', ih (by omega), step_congr h hk]

/-! ### The last step that two traces share -/

variable {trace full : Trace} {rest : Array Step} {last : Step}

/-- After its last step a trace stands where a longer one stands after that step, unless it is a call:
    the shorter trace then takes it that the call goes on. -/
theorem reached_append (tx : Transaction) (hsteps : full.steps = trace.steps ++ rest)
    (hlast : trace.steps.back? = some last) :
    reached tx trace.steps trace.steps.size = reached tx full.steps trace.steps.size ∨
      ∃ (b : Progress) (i : Nat) (type : CallType), b.opened ≠ [] ∧ i + 1 = trace.steps.size ∧
        b.owners.size = i + 1 ∧ full.steps[i]? = some last ∧ last.kind = .call type ∧
        reached tx trace.steps trace.steps.size = b.call trace.steps i last type ∧
        reached tx full.steps trace.steps.size = b.call full.steps i last type := by
  obtain ⟨m, hm⟩ : ∃ m, trace.steps.size = m + 1 := by
    have hs : trace.steps[trace.steps.size - 1]? = some last := Array.back?_eq_getElem? ▸ hlast
    have hlt := (Array.getElem?_eq_some_iff.1 hs).1
    exact ⟨trace.steps.size - 1, by omega⟩
  have hagree := agree_append hsteps
  have hs : trace.steps[m]? = some last := by
    rw [← hlast, Array.back?_eq_getElem?, hm, Nat.add_sub_cancel]
  have hs' : full.steps[m]? = some last := (hagree m (by omega)).symm.trans hs
  have hreached : reached tx trace.steps m = reached tx full.steps m :=
    reached_congr hagree (Nat.le_refl _) (by omega)
  have hran := size_owners_reached tx (show m ≤ trace.steps.size by omega)
  rw [hm, reached_succ hs, reached_succ hs', ← hreached]
  by_cases hopened : (reached tx trace.steps m).opened = []
  · left
    rw [step_eq_trail hopened, step_eq_trail hopened]
  · rw [step_eq_execute hopened, step_eq_execute hopened,
      ← arrive_congr hagree (show m ≤ trace.steps.size by omega)]
    by_cases hcall : ∃ type, last.kind = .call type
    · obtain ⟨type, hkind⟩ := hcall
      right
      refine ⟨(reached tx trace.steps m).arrive trace.steps m last, m, type,
        arrive_ne_nil hopened m last, rfl, ?_, hs', hkind, ?_, ?_⟩
      · rw [size_owners_arrive, hran]
      · rw [execute, hkind]
      · rw [execute, hkind]
    · left
      exact execute_congr hagree (by omega) (.inr fun type hkind => hcall ⟨type, hkind⟩) _

theorem owners_reached_append (tx : Transaction) (hsteps : full.steps = trace.steps ++ rest)
    (hlast : trace.steps.back? = some last) :
    (reached tx trace.steps trace.steps.size).owners =
      (reached tx full.steps trace.steps.size).owners := by
  rcases reached_append tx hsteps hlast with heq | ⟨b, i, type, _, _, _, _, _, hcut, hfull⟩
  · rw [heq]
  · rw [hcut, hfull, owners_call, owners_call]

/-- At the end of a trace a call without an error is taken to go on. -/
theorem call_of_size {i : Nat} {type : CallType} (hsize : i + 1 = steps.size)
    (herror : last.error = none) (b : Progress) :
    b.call steps i last type =
      (b.checkOperands i last type).enter (b.calledFrame i last type) := by
  have hnone : steps[i + 1]? = none := Array.getElem?_eq_none (Nat.le_of_eq hsize.symm)
  apply call_eq_enter
  · simp [herror, hnone]
  · rw [hnone]
    rfl

/-- A frame that has ended when another one was opened had ended before. -/
theorem Ended.of_enter {f g : Frame} {id : Nat} (hopened : b.opened ≠ [])
    (h : Ended f id (b.enter g)) : Ended f id b := by
  obtain ⟨top, outer, hcons⟩ := List.exists_cons_of_ne_nil hopened
  obtain ⟨hid, f', hf', hsettles⟩ := h
  rw [line_enter hcons, List.mem_cons, not_or] at hid
  have htop : top.id ≠ id := by
    rintro rfl
    exact hid.2 (line_of_opened hcons ▸ List.mem_cons_self)
  rw [frames_enter, getElem?_frames_add b g hcons, if_neg hid.1, if_neg htop] at hf'
  exact ⟨hid.2, f', hf', hsettles⟩

/-- What the shorter trace knows of a frame that has ended, the longer one knows after that step. -/
theorem Ended.append {f : Frame} {id : Nat} (hsteps : full.steps = trace.steps ++ rest)
    (hlast : trace.steps.back? = some last) (herror : last.error = none)
    (h : Ended f id (reached tx trace.steps trace.steps.size)) :
    Ended f id (reached tx full.steps trace.steps.size) := by
  rcases reached_append tx hsteps hlast with
    heq | ⟨b, i, type, hopened, hsize, hran, hs, hkind, hcut, hfull⟩
  · rw [← heq]
    exact h
  · rw [hcut, call_of_size hsize herror] at h
    have hchecked : Ended f id (b.checkOperands i last type) :=
      h.of_enter (by rw [opened_checkOperands]; exact hopened)
    have hb : Ended f id b :=
      hchecked.congr (by rw [frames_checkOperands]) (by rw [line, line, opened_checkOperands])
    rw [hfull]
    exact (moves_call b hopened hs hran hkind).ended (hran ▸ Nat.succ_pos i) hb

/-! ### The end of the shorter trace -/

/-- Of the frames that are closed with the trace it is not known how they ended. -/
theorem ended_of_closeAll {f : Frame} {id : Nat} (hf : (b.closeAll steps).frames[id]? = some f)
    (hstatus : f.status ≠ .unknown) : Ended f id b := by
  fun_induction closeAll steps b with
  | case1 b hclosed => exact ⟨by simp [line, hclosed], f, hf, .refl f⟩
  | case2 b top rest hopened ih =>
    obtain ⟨hid, f', hf', hsettles⟩ := ih hf
    rw [frames_close b hopened, Array.getElem?_modify] at hf'
    rw [line_close hopened] at hid
    split at hf'
    · obtain ⟨g, _, rfl⟩ := Option.map_eq_some_iff.1 hf'
      have hunknown : f.status = .unknown := by
        have heq := congrArg Frame.status hsettles
        exact heq.symm
      exact absurd hunknown hstatus
    · next htop =>
      refine ⟨?_, f', hf', hsettles⟩
      rw [line_of_opened hopened, List.mem_cons, not_or]
      exact ⟨fun heq => htop heq.symm, hid⟩

/-- A frame that is known to have ended, in a trace without an error at its end, ended before the end
    of the trace. -/
theorem ended_of_closed (hlast : trace.steps.back? = some last) (herror : last.error = none)
    {f : Frame} {id : Nat} (hf : (closed tx trace).frames[id]? = some f)
    (hstatus : f.status ≠ .unknown) : Ended f id (reached tx trace.steps trace.steps.size) := by
  have hnone : (reached tx trace.steps trace.steps.size).finishError trace.steps =
      reached tx trace.steps trace.steps.size := by
    unfold finishError
    split
    · next last' _ hlast' =>
      obtain rfl := Option.some.inj (hlast.symm.trans hlast')
      rw [herror]
      exact if_neg (by simp)
    · rfl
  rw [closed_eq_of_back? hlast, hnone] at hf
  unfold finishOpen at hf
  split at hf
  · next hclosed =>
    exact ⟨by simp [line, List.isEmpty_iff.1 hclosed], f, hf, .refl f⟩
  · exact ended_of_closeAll hf hstatus

theorem size_pos_of_back? (hlast : trace.steps.back? = some last) : 0 < trace.steps.size :=
  Nat.lt_of_le_of_lt (Nat.zero_le _)
    (Array.getElem?_eq_some_iff.1 (Array.back?_eq_getElem? ▸ hlast)).1

theorem size_le_of_append (hsteps : full.steps = trace.steps ++ rest) :
    trace.steps.size ≤ full.steps.size := by
  rw [hsteps, Array.size_append]
  exact Nat.le_add_right _ _

/-- What the shorter trace knows of a frame that has ended, the longer one knows in the end. -/
theorem ended_closed_append (hsteps : full.steps = trace.steps ++ rest)
    (hlast : trace.steps.back? = some last) (herror : last.error = none) {f : Frame} {id : Nat}
    (hf : (closed tx trace).frames[id]? = some f) (hstatus : f.status ≠ .unknown) :
    Ended f id (closed tx full) := by
  have hpos := size_pos_of_back? hlast
  have hle := size_le_of_append hsteps
  obtain ⟨last', hlast'⟩ := exists_back?_eq_some (Nat.lt_of_lt_of_le hpos hle)
  have hended := (ended_of_closed hlast herror hf hstatus).append hsteps hlast herror
  refine (moves_closed_reached hlast' hle).ended ?_ hended
  rw [size_owners_reached tx hle]
  exact hpos

/-- Where the shorter trace ends the outermost frame, both stand at the same tree after it. -/
theorem reached_append_of_closed (hsteps : full.steps = trace.steps ++ rest)
    (hlast : trace.steps.back? = some last) (herror : last.error = none)
    (hclosed : (reached tx trace.steps trace.steps.size).opened = []) :
    reached tx trace.steps trace.steps.size = reached tx full.steps trace.steps.size := by
  rcases reached_append tx hsteps hlast with
    heq | ⟨b, i, type, hopened, hsize, _, _, _, hcut, _⟩
  · exact heq
  · rw [hcut, call_of_size hsize herror] at hclosed
    exact absurd hclosed (enter_ne_nil _ _ (by rw [opened_checkOperands]; exact hopened))

end Progress

/-- What is known of a frame that has ended, but for its last step and its gas. -/
structure Frame.Persists (f f' : Frame) : Prop where
  parent : f'.parent = f.parent
  children : f'.children = f.children
  callType : f'.callType = f.callType
  callStep : f'.callStep = f.callStep
  start : f'.start = f.start
  level : f'.level = f.level
  status : f'.status = f.status
  value : f'.value = f.value
  input : f'.input = f.input
  logs : f'.logs = f.logs

/-- Steps followed after the outermost frame had ended. -/
def Anomaly.isTrailing : Anomaly → Bool
  | trailingSteps _ _ => true
  | _ => false

namespace CallTree

/-- At most one anomaly says that steps trail. -/
theorem filter_isTrailing_anomalies (tx : Transaction) {trace : Trace} (r : Registry) {last : Step}
    (hlast : trace.steps.back? = some last) :
    (anomalies tx trace r).filter Anomaly.isTrailing =
      ((Progress.closed tx trace).trailing.map fun (first, count) =>
        Anomaly.trailingSteps first count).toList := by
  have hclosed : (Progress.closed tx trace).anomalies.toList.filter Anomaly.isTrailing = [] := by
    rw [List.filter_eq_nil_iff]
    intro a ha
    rcases Progress.mem_anomalies_closed hlast (Array.mem_toList_iff.1 ha) with h | ⟨n, rfl⟩
    · obtain ⟨i, _, hstep⟩ := Progress.ofStep_of_mem_reached (Nat.le_refl _) h
      cases a with
      | depthJump | missingOperands => simp [Anomaly.isTrailing]
      | _ => cases hstep
    · simp [Anomaly.isTrailing]
  have hnamed : ((ofTrace tx trace).1.named r).2.filter Anomaly.isTrailing = [] := by
    rw [List.filter_eq_nil_iff]
    intro a ha
    have hundecoded := isUndecoded_of_mem_named ha
    cases a with
    | undecodedInput | undecodedOutput => simp [Anomaly.isTrailing]
    | _ => cases hundecoded
  rw [anomalies, Progress.anomalies_ofTrace, Array.toList_append, List.filter_append,
    List.filter_append, hclosed, hnamed, List.nil_append, List.append_nil]
  cases (Progress.closed tx trace).trailing <;> rfl

variable {trace full : Trace} {rest : Array Step} {last : Step}

/-- The longer trace gives the steps of the shorter one to the same frames. -/
theorem owners_prefix_of_append (tx : Transaction) (hsteps : full.steps = trace.steps ++ rest)
    (hlast : trace.steps.back? = some last) :
    (ofTrace tx trace).1.owners.toList <+: (ofTrace tx full).1.owners.toList := by
  have hle := Progress.size_le_of_append hsteps
  obtain ⟨last', hlast'⟩ := Progress.exists_back?_eq_some
    (Nat.lt_of_lt_of_le (Progress.size_pos_of_back? hlast) hle)
  have howners : (Progress.closed tx trace).owners =
      (Progress.reached tx full.steps trace.steps.size).owners := by
    rw [Progress.closed_eq_of_back? hlast, Progress.owners_finishOpen, Progress.owners_finishError,
      Progress.owners_reached_append tx hsteps hlast]
  rw [Progress.owners_ofTrace, Progress.owners_ofTrace, howners, List.prefix_iff_getElem?]
  intro i hi
  rw [Array.getElem?_toList]
  apply (Progress.extends_closed tx hlast' hle).owners
  rw [← Array.getElem?_toList]
  exact List.getElem?_eq_getElem hi

/-- What the shorter trace knows of a frame that has ended, the longer one knows too. -/
theorem frame_persists_of_append (tx : Transaction) (r : Registry)
    (hsteps : full.steps = trace.steps ++ rest) (hlast : trace.steps.back? = some last)
    (herror : last.error = none) {id : Nat} {f : Frame}
    (hf : ((ofTrace tx trace).1.named r).1.frame? id = some f) (hstatus : f.status ≠ .unknown) :
    ∃ f', ((ofTrace tx full).1.named r).1.frame? id = some f' ∧ f.Persists f' ∧
      (id ≠ 0 → f'.stop = f.stop ∧ f'.gasUsed = f.gasUsed) := by
  rw [frame?_named_ofTrace] at hf
  obtain ⟨g, hg, rfl⟩ := Option.map_eq_some_iff.1 hf
  rw [status_finalFrame] at hstatus
  obtain ⟨_, g', hg', hsettles⟩ := Progress.ended_closed_append hsteps hlast herror hg hstatus
  rw [frame?_named_ofTrace, hg', Option.map_some]
  refine ⟨_, rfl, ?_⟩
  rw [hsettles]
  by_cases hid : id = 0
  · subst hid
    exact ⟨⟨rfl, rfl, rfl, rfl, rfl, rfl, rfl, rfl, rfl, rfl⟩, fun hne => absurd rfl hne⟩
  · rw [finalFrame_of_ne_zero tx trace r hid, finalFrame_of_ne_zero tx full r hid]
    exact ⟨⟨rfl, rfl, rfl, rfl, rfl, rfl, rfl, rfl, rfl, rfl⟩, fun _ => ⟨rfl, rfl⟩⟩

/-- If the shorter trace knows how the outermost frame ended, the longer one makes no more calls and
    says once that all the steps after that end trail. -/
theorem trailing_of_append (tx : Transaction) (r : Registry)
    (hsteps : full.steps = trace.steps ++ rest) (hlast : trace.steps.back? = some last)
    (herror : last.error = none) (hrest : rest ≠ #[])
    (hstatus : ((ofTrace tx trace).1.named r).1.root.status ≠ .unknown) :
    ((ofTrace tx full).1.named r).1.frames.size = ((ofTrace tx trace).1.named r).1.frames.size ∧
      ∃ k < trace.steps.size, (Progress.reached tx full.steps k).opened ≠ [] ∧
        (Progress.reached tx full.steps (k + 1)).opened = [] ∧
        (anomalies tx full r).filter Anomaly.isTrailing =
          [.trailingSteps (k + 1) (full.steps.size - (k + 1))] := by
  have hle := Progress.size_le_of_append hsteps
  have hlt : trace.steps.size < full.steps.size := by
    have := Array.size_pos_iff.2 hrest
    rw [hsteps, Array.size_append]
    omega
  obtain ⟨last', hlast'⟩ := Progress.exists_back?_eq_some hlt
  have hclosed : (Progress.reached tx trace.steps trace.steps.size).opened = [] := by
    have hroot : ((ofTrace tx trace).1.named r).1.frame? 0 =
        some ((ofTrace tx trace).1.named r).1.root := Array.getElem?_eq_getElem (frames_pos _)
    rw [frame?_named_ofTrace] at hroot
    obtain ⟨g, hg, hfinal⟩ := Option.map_eq_some_iff.1 hroot
    rw [← hfinal, status_finalFrame] at hstatus
    obtain ⟨hid, _⟩ := Progress.ended_of_closed hlast herror hg hstatus
    by_contra hopened
    exact hid ((Progress.coherent_reached tx (Nat.le_refl _)).zero_mem_line hopened)
  have hsame := Progress.reached_append_of_closed hsteps hlast herror hclosed
  have hclosed' := hclosed
  rw [hsame] at hclosed'
  obtain ⟨hopened, hframes, _⟩ := Progress.reached_of_closed hle (Nat.le_refl _) hclosed'
  refine ⟨?_, ?_⟩
  · rw [size_frames_named_ofTrace, size_frames_named_ofTrace, Progress.closed_eq_reached hlast hclosed,
      Progress.closed_eq_reached hlast' hopened, hframes, hsame]
  · obtain ⟨k, hk, hbefore, hafter, htrailing⟩ := Progress.exists_ended (Nat.le_refl _) hopened
    have hkn : k < trace.steps.size := by
      by_contra hge
      exact hbefore (Progress.reached_of_closed (Nat.le_of_not_lt hge) (Nat.le_of_lt hk) hclosed').1
    refine ⟨k, hkn, hbefore, hafter, ?_⟩
    rw [filter_isTrailing_anomalies tx r hlast', Progress.closed_eq_reached hlast' hopened, htrailing,
      if_neg (by omega)]
    rfl

/-- A trace that ends without an error, and a longer one that begins with it: both give the steps of
    the shorter one to the same frames, and what that knows of a frame that has ended stays so. If it
    knows how the outermost frame ended, the longer one makes no more calls, and says once that all
    the steps after that end trail. -/
theorem persists_of_append (tx : Transaction) (trace full : Trace) (r : Registry)
    {rest : Array Step} {last : Step} (hsteps : full.steps = trace.steps ++ rest)
    (hlast : trace.steps.back? = some last) (herror : last.error = none) :
    ((ofTrace tx trace).1.named r).1.owners.toList <+:
        ((ofTrace tx full).1.named r).1.owners.toList ∧
      (∀ id f, ((ofTrace tx trace).1.named r).1.frame? id = some f → f.status ≠ .unknown →
        ∃ f', ((ofTrace tx full).1.named r).1.frame? id = some f' ∧ f.Persists f' ∧
          (id ≠ 0 → f'.stop = f.stop ∧ f'.gasUsed = f.gasUsed)) ∧
      (((ofTrace tx trace).1.named r).1.root.status ≠ .unknown → rest ≠ #[] →
        ((ofTrace tx full).1.named r).1.frames.size = ((ofTrace tx trace).1.named r).1.frames.size ∧
          ∃ k < trace.steps.size, (Progress.reached tx full.steps k).opened ≠ [] ∧
            (Progress.reached tx full.steps (k + 1)).opened = [] ∧
            (anomalies tx full r).filter Anomaly.isTrailing =
              [.trailingSteps (k + 1) (full.steps.size - (k + 1))]) := by
  refine ⟨?_, ?_, ?_⟩
  · rw [owners_named, owners_named]
    exact owners_prefix_of_append tx hsteps hlast
  · intro id f hf hstatus
    exact frame_persists_of_append tx r hsteps hlast herror hf hstatus
  · intro hstatus hrest
    exact trailing_of_append tx r hsteps hlast herror hrest hstatus

/-- A contract calls another one, and both stop. -/
def stoppedCall : Trace where
  steps :=
    #[⟨0, "CALL", 1, 100, 10, [50, 0xcc, 0, 0, 0, 0, 0], none, none, none, none⟩,
      ⟨0, "STOP", 2, 80, 0, [], none, none, none, none⟩,
      ⟨1, "STOP", 1, 50, 0, [1], none, none, none, none⟩]
  dropped := []
  gasUsed := none
  failed := none
  returnValue := none
  depth_le := by simp [maxCallDepth]

/-- The same with two more steps. -/
def trailedCall : Trace where
  steps := stoppedCall.steps ++
    #[⟨2, "JUMPDEST", 1, 50, 1, [], none, none, none, none⟩,
      ⟨3, "STOP", 1, 49, 0, [], none, none, none, none⟩]
  dropped := []
  gasUsed := none
  failed := none
  returnValue := none
  depth_le := by simp [stoppedCall, maxCallDepth]

/-- The tree of a call of the contract `0xbb` with that trace. -/
def treeOfCall (trace : Trace) : CallTree :=
  ((ofTrace ⟨none, 0xee, some 0xbb, [], 0, 0, 0, none, none⟩ trace).1.named Registry.empty).1

theorem persists_of_append_trailedCall :
    (treeOfCall stoppedCall).owners.toList <+: (treeOfCall trailedCall).owners.toList ∧
      (∀ id f, (treeOfCall stoppedCall).frame? id = some f → f.status ≠ .unknown →
        ∃ f', (treeOfCall trailedCall).frame? id = some f' ∧ f.Persists f' ∧
          (id ≠ 0 → f'.stop = f.stop ∧ f'.gasUsed = f.gasUsed)) ∧
      (treeOfCall trailedCall).frames.size = (treeOfCall stoppedCall).frames.size ∧
      ∃ k < 3,
        (Progress.reached ⟨none, 0xee, some 0xbb, [], 0, 0, 0, none, none⟩ trailedCall.steps
          k).opened ≠ [] ∧
        (Progress.reached ⟨none, 0xee, some 0xbb, [], 0, 0, 0, none, none⟩ trailedCall.steps
          (k + 1)).opened = [] ∧
        (anomalies ⟨none, 0xee, some 0xbb, [], 0, 0, 0, none, none⟩ trailedCall
            Registry.empty).filter Anomaly.isTrailing =
          [.trailingSteps (k + 1) (5 - (k + 1))] := by
  obtain ⟨howners, hframes, hroot⟩ := persists_of_append
    ⟨none, 0xee, some 0xbb, [], 0, 0, 0, none, none⟩ stoppedCall trailedCall Registry.empty rfl rfl rfl
  exact ⟨howners, hframes, hroot (by decide +kernel) (by simp)⟩

end CallTree

end TxTrace

import TxTrace.Proofs.CallTree.Emitter
import TxTrace.Proofs.CallTree.Persistence
import TxTrace.Proofs.CallTree.Standing
import TxTrace.Proofs.Trace.Memory

/-!
The logs that a trace leaves. Each step that runs a log while the outermost frame has not ended leaves
one log with the frame that owns the step, and nothing else leaves any (`CallTree.emitted_named_ofTrace`).
-/

namespace TxTrace

/-- The step is a log and shows all the words it takes: offset, length and topics. -/
def Step.isLog (s : Step) : Bool :=
  match s.kind with
  | .log topics => topics + 2 ≤ s.stack.length
  | _ => false

theorem Step.isLog_iff {s : Step} :
    s.isLog ↔ ∃ topics, s.kind = .log topics ∧ topics + 2 ≤ s.stack.length := by
  unfold isLog
  split
  · next topics hkind => simp [hkind]
  · next hkind => simpa using fun topics hlog => absurd hlog (hkind topics)

/-- The log is what the step at `i` emits, but for its address: the topics lie below the offset and the
    length of the data, which is empty when memory cannot be read. -/
structure Step.Emits (s : Step) (i : Nat) (log : Log) : Prop where
  kind : s.kind = .log log.topics.length
  operands : ∃ offset length rest, s.stack = offset :: length :: (log.topics ++ rest) ∧
    (s.CanRead offset length → log.data = s.memorySlice offset.toNat length.toNat) ∧
    (¬ s.CanRead offset length → log.data = [])
  step : log.step = some i

/-- The log is what the step at `i` emits. -/
def EmittedAt (steps : Array Step) (i : Nat) (log : Log) : Prop :=
  ∃ s, steps[i]? = some s ∧ s.Emits i log

theorem EmittedAt.step {steps : Array Step} {i : Nat} {log : Log} (h : EmittedAt steps i log) :
    log.step = some i := by
  obtain ⟨s, _, hemits⟩ := h
  exact hemits.step

namespace Progress

variable {tx : Transaction} {steps : Array Step} {b b' : Progress}

/-- The logs of a frame, none where there is no frame. -/
def logsOf (b : Progress) (id : Nat) : List Log := (b.frames[id]?.map (·.logs.toList)).getD []

/-- No frame has got or lost a log. -/
def KeepsLogs (b b' : Progress) : Prop := ∀ id, b'.logsOf id = b.logsOf id

theorem KeepsLogs.refl (b : Progress) : KeepsLogs b b := fun _ => rfl

theorem KeepsLogs.trans {b'' : Progress} (h : KeepsLogs b b') (h' : KeepsLogs b' b'') :
    KeepsLogs b b'' :=
  fun id => (h' id).trans (h id)

theorem KeepsLogs.of_frames (hframes : b'.frames = b.frames) : KeepsLogs b b' := by
  intro id
  rw [logsOf, hframes, logsOf]

theorem KeepsLogs.of_modify {id : Nat} {g : Frame → Frame} (hframes : b'.frames = b.frames.modify id g)
    (hg : ∀ f, (g f).logs = f.logs) : KeepsLogs b b' := by
  intro i
  rw [logsOf, hframes, Array.getElem?_modify, logsOf]
  split
  · simp only [Option.map_map, Function.comp_def, hg]
  · rfl

/-- Frames begin without logs. -/
theorem KeepsLogs.of_add {f : Frame} (hopened : b.opened ≠ []) (hf : f.logs = #[])
    (hframes : b'.frames = (b.add f).frames) : KeepsLogs b b' := by
  intro id
  obtain ⟨top, outer, hcons⟩ := List.exists_cons_of_ne_nil hopened
  rw [logsOf, hframes, getElem?_frames_add b f hcons, logsOf]
  split
  · next hid =>
    rw [Array.getElem?_eq_none (Nat.le_of_eq hid.symm)]
    simp [hf]
  · split
    · rw [Option.map_map]
      rfl
    · rfl

theorem keepsLogs_close (b : Progress) (ending : Ending) : KeepsLogs b (b.close steps ending) := by
  cases hopened : b.opened with
  | nil => exact .of_frames (by rw [close_of_nil ending hopened])
  | cons top outer => exact .of_modify (frames_close b hopened) fun _ => rfl

theorem keepsLogs_enter {f : Frame} (hopened : b.opened ≠ []) (hbegins : Begins steps b f) :
    KeepsLogs b (b.enter f) :=
  .of_add hopened hbegins.emitter.1 (frames_enter b f)

theorem keepsLogs_settle (b : Progress) (s : Step) : KeepsLogs b (b.settle s) := by
  cases hst : b.settlement with
  | none => exact .of_frames (by rw [settle_of_none hst])
  | some st => exact .of_modify (frames_settle hst s) fun _ => rfl

theorem keepsLogs_arrive {s : Step} (hs : steps[b.owners.size]? = some s) :
    KeepsLogs b (b.arrive steps b.owners.size s) := by
  have halign : KeepsLogs b (b.align steps b.owners.size s.depth) := by
    apply align_preserves hs
    · intro b' ending _ h
      exact h.trans (keepsLogs_close b' ending)
    · intro _ _ hopened hbegins h
      exact h.trans (keepsLogs_enter hopened hbegins)
    · intro b' h
      exact h.trans (.of_frames (frames_setDepth b' s.depth))
    · intro _ _ h
      exact h.trans (.of_frames rfl)
    · exact .refl b
  have howned (b : Progress) : KeepsLogs b b.own := .of_frames rfl
  exact (halign.trans (keepsLogs_settle _ s)).trans (howned _)

theorem keepsLogs_call {i : Nat} {s : Step} {type : CallType} (hopened : b.opened ≠ [])
    (hs : steps[i]? = some s) (hran : b.owners.size = i + 1) (hkind : s.kind = .call type) :
    KeepsLogs b (b.call steps i s type) := by
  apply call_preserves hopened hs hran hkind
  · intro _ _ h
    exact h.trans (.of_frames rfl)
  · intro _ _ hopened hbegins h
    exact h.trans (keepsLogs_enter hopened hbegins)
  · intro _ _ hopened hbegins h
    exact h.trans (.of_add hopened hbegins.emitter.1 rfl)
  · exact .refl b

theorem keepsLogs_finishEmpty (b : Progress) (failed : Option Bool) :
    KeepsLogs b (b.finishEmpty failed) := by
  intro id
  simp only [logsOf, finishEmpty, modify, Array.getElem?_modify]
  split
  · rw [Option.map_map]
    rfl
  · rfl

/-! ### Logs -/

/-- A log whose operands are there emits. -/
theorem exists_logOf?_eq_some {i topics : Nat} {s : Step} (address : Address)
    (hkind : s.kind = .log topics) (hstack : topics + 2 ≤ s.stack.length) :
    ∃ log, logOf? i s topics address = some log ∧ s.Emits i log := by
  unfold logOf?
  split
  · next offset length rest hcons =>
    have htopics : topics ≤ rest.length := by simpa [hcons] using hstack
    rw [if_pos htopics]
    refine ⟨_, rfl, ?_⟩
    constructor
    case kind => rw [List.length_take, Nat.min_eq_left htopics, hkind]
    case operands =>
      refine ⟨offset, length, rest.drop topics, by rw [List.take_append_drop, hcons], ?_, ?_⟩
      · intro hread
        rw [Step.readMemory_of_canRead hread]
        rfl
      · intro hread
        rw [Step.readMemory_of_not_canRead hread]
        rfl
    case step => rfl
  · next hshort =>
    exfalso
    cases hcons : s.stack with
    | nil => simp [hcons] at hstack
    | cons offset rest =>
      cases rest with
      | nil => simp [hcons] at hstack
      | cons length rest => exact hshort offset length rest hcons

theorem logOf?_eq_none {i topics : Nat} {s : Step} (address : Address)
    (hstack : ¬ topics + 2 ≤ s.stack.length) : logOf? i s topics address = none := by
  unfold logOf?
  split
  · next offset length rest hcons =>
    have htopics : ¬ topics ≤ rest.length := by simpa [hcons] using hstack
    exact if_neg htopics
  · rfl

/-- What does not emit leaves no logs. -/
theorem keepsLogs_execute {i : Nat} {s : Step} (hopened : b.opened ≠ []) (hs : steps[i]? = some s)
    (hran : b.owners.size = i + 1) (hlog : ¬ s.isLog) : KeepsLogs b (b.execute steps i s) := by
  unfold execute
  split
  · next type hkind => exact keepsLogs_call hopened hs hran hkind
  · exact keepsLogs_close b _
  · next topics hkind =>
    have hstack : ¬ topics + 2 ≤ s.stack.length := fun hstack =>
      hlog (Step.isLog_iff.2 ⟨topics, hkind, hstack⟩)
    rw [log, logOf?_eq_none _ hstack]
    exact .of_frames rfl
  · exact .refl b

/-- A log is left with the innermost open frame. -/
theorem logsOf_execute (steps : Array Step) {i : Nat} {s : Step} {top : OpenFrame} {outer : List OpenFrame}
    (hopened : b.opened = top :: outer) (htop : top.id < b.frames.size) (hlog : s.isLog) :
    ∃ log, s.Emits i log ∧
      ∀ id, (b.execute steps i s).logsOf id = b.logsOf id ++ if top.id = id then [log] else [] := by
  obtain ⟨topics, hkind, hstack⟩ := Step.isLog_iff.1 hlog
  obtain ⟨log, hsome, hemits⟩ :=
    exists_logOf?_eq_some (i := i) (b.context.getD 0) hkind hstack
  refine ⟨log, hemits, fun id => ?_⟩
  have hexecute : (b.execute steps i s).frames =
      b.frames.modify top.id fun f => { f with logs := f.logs.push log } := by
    simp only [execute, hkind, Progress.log, hsome, hopened]
    rfl
  rw [logsOf, hexecute, Array.getElem?_modify, logsOf]
  split
  · next hid =>
    subst hid
    rw [Array.getElem?_eq_getElem htop]
    simp
  · rw [List.append_nil]

/-! ### Runs -/

/-- Those of the first `n` steps that emit a log: they ran before the outermost frame had ended, and
    show the operands of a log. -/
def logSteps (tx : Transaction) (steps : Array Step) (n : Nat) : List Nat :=
  (List.range n).filter fun i => !(reached tx steps i).opened.isEmpty && steps[i]?.any Step.isLog

theorem mem_logSteps_iff {n i : Nat} :
    i ∈ logSteps tx steps n ↔ i < n ∧ (reached tx steps i).opened ≠ [] ∧
      ∃ s topics, steps[i]? = some s ∧ s.kind = .log topics ∧ topics + 2 ≤ s.stack.length := by
  simp only [logSteps, List.mem_filter, List.mem_range, Bool.and_eq_true, Bool.not_eq_true',
    List.isEmpty_eq_false_iff, Option.any_eq_true, Step.isLog_iff, exists_and_left]

theorem pairwise_logSteps (tx : Transaction) (steps : Array Step) (n : Nat) :
    (logSteps tx steps n).Pairwise (· < ·) :=
  List.pairwise_lt_range.filter _

theorem logSteps_succ (tx : Transaction) {n : Nat} {s : Step} (hs : steps[n]? = some s) :
    logSteps tx steps (n + 1) = logSteps tx steps n ++
      if (reached tx steps n).opened ≠ [] ∧ s.isLog then [n] else [] := by
  rw [logSteps, List.range_succ, List.filter_append, ← logSteps, List.filter_singleton, hs,
    Option.any_some, Bool.cond_eq_ite]
  simp only [Bool.and_eq_true, Bool.not_eq_true', List.isEmpty_eq_false_iff]

theorem logsOf_ofTransaction (tx : Transaction) (steps : Array Step) (id : Nat) :
    (ofTransaction tx steps).logsOf id = [] := by
  cases hf : (ofTransaction tx steps).frames[id]? with
  | none => rw [logsOf, hf]; rfl
  | some f =>
    rw [logsOf, hf, Option.map_some, Option.getD_some]
    obtain ⟨_, rfl⟩ := Array.getElem?_eq_some_iff.1 hf
    simp [ofTransaction]

/-- A step leaves a log with its owner, if it emits one, and else none. -/
theorem logsOf_reached_succ (tx : Transaction) {trace : Trace} {n : Nat} {s : Step}
    (hs : trace.steps[n]? = some s) :
    if (reached tx trace.steps n).opened ≠ [] ∧ s.isLog then
      ∃ owner log, (reached tx trace.steps (n + 1)).owners[n]? = some owner ∧ s.Emits n log ∧
        ∀ id, (reached tx trace.steps (n + 1)).logsOf id =
          (reached tx trace.steps n).logsOf id ++ if owner = id then [log] else []
    else KeepsLogs (reached tx trace.steps n) (reached tx trace.steps (n + 1)) := by
  have hle : n ≤ trace.steps.size := Nat.le_of_lt (Array.getElem?_eq_some_iff.1 hs).1
  have hran := size_owners_reached tx hle
  by_cases hopened : (reached tx trace.steps n).opened = []
  · rw [if_neg fun h => h.1 hopened, reached_succ hs, step_eq_trail hopened]
    exact .of_frames rfl
  · obtain ⟨top, outer, harrived⟩ := arrived_reached hs (contiguous_reached tx hle) hopened
    -- Bringing the frames to the depth of the step keeps all logs, whatever it closes and opens.
    have harrive := keepsLogs_arrive (b := reached tx trace.steps n) (by rw [hran]; exact hs)
    rw [hran] at harrive
    rw [reached_succ hs, step_eq_execute hopened]
    split
    · next hemit =>
      have htop := harrived.coherent.lt_size_of_mem_line
        (line_of_opened harrived.opened ▸ List.mem_cons_self)
      obtain ⟨log, hlog, hlogs⟩ :=
        logsOf_execute trace.steps (i := n) harrived.opened htop hemit.2
      refine ⟨top.id, log, ?_, hlog, fun id => ?_⟩
      · rw [owners_execute]
        exact harrived.owner
      · rw [hlogs, harrive id]
    · next hemit =>
      have hne : ((reached tx trace.steps n).arrive trace.steps n s).opened ≠ [] :=
        arrive_ne_nil hopened n s
      have hran' : ((reached tx trace.steps n).arrive trace.steps n s).owners.size = n + 1 := by
        rw [size_owners_arrive, hran]
      exact harrive.trans (keepsLogs_execute hne hs hran' fun hlog => hemit ⟨hopened, hlog⟩)

/-- The logs of a frame are what those of its own steps emitted that emit any, in their order. -/
theorem emitted_reached (tx : Transaction) {trace : Trace} {n : Nat} (hn : n ≤ trace.steps.size)
    (id : Nat) :
    List.Forall₂ (EmittedAt trace.steps)
      ((logSteps tx trace.steps n).filter fun i => (closed tx trace).owners[i]? = some id)
      ((reached tx trace.steps n).logsOf id) := by
  -- Owners are those of the closed tree, so that one more step leaves the choice of the others alone.
  induction n with
  | zero =>
    rw [reached_zero, logsOf_ofTransaction]
    exact .nil
  | succ n ih =>
    have hs : trace.steps[n]? = some trace.steps[n] := Array.getElem?_eq_getElem hn
    obtain ⟨last, hlast⟩ := exists_back?_eq_some hn
    have hbefore := ih (Nat.le_of_succ_le hn)
    have hstep := logsOf_reached_succ tx hs
    rw [logSteps_succ tx hs]
    split at hstep
    · next hemit =>
      obtain ⟨owner, log, howner, hlog, hlogs⟩ := hstep
      have howner' := (extends_closed tx hlast hn).owners howner
      rw [if_pos hemit, List.filter_append, hlogs]
      refine List.rel_append hbefore ?_
      by_cases hid : owner = id
      · rw [if_pos hid, List.filter_singleton, howner', hid]
        simpa using ⟨_, hs, hlog⟩
      · rw [if_neg hid, List.filter_singleton, howner']
        simp [hid]
    · next hemit =>
      rw [if_neg hemit, List.append_nil, hstep id]
      exact hbefore

theorem keepsLogs_closed (tx : Transaction) (trace : Trace) :
    KeepsLogs (reached tx trace.steps trace.steps.size) (closed tx trace) := by
  apply closed_preserves
  · exact .refl _
  · intro b _ h
    exact h.trans (keepsLogs_finishEmpty b trace.failed)
  · intro b ending _ h
    exact h.trans (keepsLogs_close b ending)
  · intro _ _ h
    exact h.trans (.of_frames rfl)

end Progress

/-- The steps that emitted logs are those that the logs name. -/
theorem step_eq_of_emittedAt {steps : Array Step} {l : List Nat} {logs : List Log}
    (h : List.Forall₂ (EmittedAt steps) l logs) :
    logs.map (·.step.getD 0) = l ∧ ∀ log ∈ logs, EmittedAt steps (log.step.getD 0) log := by
  have hstep : logs.map (·.step.getD 0) = l := by
    rw [← List.forall₂_eq_eq_eq, List.forall₂_map_left_iff]
    refine (h.imp fun i log hlog => ?_).flip
    show log.step.getD 0 = i
    rw [hlog.step, Option.getD_some]
  rw [← hstep, List.forall₂_map_left_iff, List.forall₂_same] at h
  exact ⟨hstep, h⟩

namespace CallTree

variable {tree : CallTree} {steps : Array Step} {l : List Nat}

/-- Each frame has the logs of those of the steps `l` that it owns. -/
structure Emitted (tree : CallTree) (steps : Array Step) (l : List Nat) : Prop where
  owned : ∀ {i : Nat}, i ∈ l → ∃ id f, tree.owner? i = some id ∧ tree.frame? id = some f
  logs : ∀ {id : Nat} {f : Frame}, tree.frame? id = some f →
    List.Forall₂ (EmittedAt steps) (l.filter (tree.owner? · = some id)) f.logs.toList

theorem owner?_named_eq (tx : Transaction) (trace : Trace) (r : Registry) (i : Nat) :
    ((ofTrace tx trace).1.named r).1.owner? i = (Progress.closed tx trace).owners[i]? := by
  cases howner : (Progress.closed tx trace).owners[i]? with
  | some id => exact owner?_named_ofTrace tx trace r howner
  | none => rw [owner?, owners_named, Progress.owners_ofTrace, howner, Option.filter_none]

/-- Of the steps of a trace, those that emit a log leave one each with the frames that own them. -/
theorem emitted_named_ofTrace (tx : Transaction) (trace : Trace) (r : Registry) :
    ((ofTrace tx trace).1.named r).1.Emitted trace.steps
      (Progress.logSteps tx trace.steps trace.steps.size) := by
  constructor
  case owned =>
    intro i hi
    have hlt : i < (Progress.closed tx trace).owners.size := by
      rw [Progress.size_owners_closed]
      exact (Progress.mem_logSteps_iff.1 hi).1
    obtain ⟨id, howner⟩ : ∃ id, (Progress.closed tx trace).owners[i]? = some id :=
      ⟨_, Array.getElem?_eq_getElem hlt⟩
    have hid := (Progress.coherent_closed tx trace).ranged.owner_lt howner
    rw [Progress.size_places, ← size_frames_named_ofTrace tx trace r] at hid
    exact ⟨id, _, owner?_named_ofTrace tx trace r howner, Array.getElem?_eq_getElem hid⟩
  case logs =>
    intro id f hf
    rw [frame?_named_ofTrace] at hf
    obtain ⟨g, hg, rfl⟩ := Option.map_eq_some_iff.1 hf
    have hlogs : (finalFrame tx trace r id g).logs.toList = (Progress.closed tx trace).logsOf id := by
      rw [Progress.logsOf, hg, Option.map_some, Option.getD_some]
      unfold finalFrame
      split <;> rfl
    simp only [owner?_named_eq]
    rw [hlogs, Progress.keepsLogs_closed tx trace id]
    exact Progress.emitted_reached tx (Nat.le_refl _) id

/-! ### The order of the steps -/

/-- The logs of all frames, each with its frame, in the order of the steps. -/
def sortedLogs (tree : CallTree) : List (Frame × Log) :=
  (tree.frames.toList.flatMap fun f => f.logs.toList.map (f, ·)).mergeSort
    fun a b => a.2.step.getD 0 ≤ b.2.step.getD 0

/-- The steps that emitted the logs, one for each, in their order. -/
def eventSteps (tree : CallTree) : List Nat := tree.sortedLogs.map (·.2.step.getD 0)

theorem mem_sortedLogs_iff {p : Frame × Log} :
    p ∈ tree.sortedLogs ↔ (∃ id, tree.frame? id = some p.1) ∧ p.2 ∈ p.1.logs := by
  rw [sortedLogs, List.mem_mergeSort, List.mem_flatMap]
  constructor
  · rintro ⟨f, hf, hp⟩
    obtain ⟨log, hlog, rfl⟩ := List.mem_map.1 hp
    obtain ⟨id, hid⟩ := List.mem_iff_getElem?.1 hf
    rw [Array.getElem?_toList] at hid
    exact ⟨⟨id, hid⟩, Array.mem_toList_iff.1 hlog⟩
  · rintro ⟨⟨id, hid⟩, hlog⟩
    refine ⟨p.1, Array.mem_toList_iff.2 (Array.mem_of_getElem? hid), ?_⟩
    exact List.mem_map_of_mem (Array.mem_toList_iff.2 hlog)

theorem perm_eventSteps (tree : CallTree) :
    tree.eventSteps.Perm (tree.frames.toList.flatMap fun f => f.logs.toList.map (·.step.getD 0)) := by
  have hperm : tree.eventSteps.Perm _ := (List.mergeSort_perm _ _).map _
  simpa only [List.map_flatMap, List.map_map, Function.comp_def] using hperm

theorem pairwise_eventSteps (tree : CallTree) : tree.eventSteps.Pairwise (· ≤ ·) := by
  refine List.pairwise_map.2 ((List.pairwise_mergeSort ?_ ?_ _).imp of_decide_eq_true)
  · intro a b c hab hbc
    exact decide_eq_true (Nat.le_trans (of_decide_eq_true hab) (of_decide_eq_true hbc))
  · intro a b
    simpa using Nat.le_total _ _

/-- The log is what the step at `i` emitted, and with the frame that owns it. -/
def Leaves (tree : CallTree) (steps : Array Step) (i : Nat) (f : Frame) (log : Log) : Prop :=
  ∃ id, tree.owner? i = some id ∧ tree.frame? id = some f ∧ log ∈ f.logs ∧ EmittedAt steps i log

theorem Emitted.leaves (h : tree.Emitted steps l) {p : Frame × Log} (hp : p ∈ tree.sortedLogs) :
    p.2.step.getD 0 ∈ l ∧ tree.Leaves steps (p.2.step.getD 0) p.1 p.2 := by
  obtain ⟨⟨id, hf⟩, hlog⟩ := mem_sortedLogs_iff.1 hp
  obtain ⟨hsteps, hlogs⟩ := step_eq_of_emittedAt (h.logs hf)
  have hmem : p.2.step.getD 0 ∈ l.filter (tree.owner? · = some id) := by
    rw [← hsteps]
    exact List.mem_map_of_mem (Array.mem_toList_iff.2 hlog)
  obtain ⟨hl, howner⟩ := List.mem_filter.1 hmem
  exact ⟨hl, id, of_decide_eq_true howner, hf, hlog, hlogs p.2 (Array.mem_toList_iff.2 hlog)⟩

theorem Emitted.mem_eventSteps_iff (h : tree.Emitted steps l) (i : Nat) :
    i ∈ tree.eventSteps ↔ i ∈ l := by
  constructor
  · intro hi
    obtain ⟨p, hp, rfl⟩ := List.mem_map.1 hi
    exact (h.leaves hp).1
  · intro hi
    obtain ⟨id, f, howner, hf⟩ := h.owned hi
    rw [tree.perm_eventSteps.mem_iff, List.mem_flatMap]
    refine ⟨f, Array.mem_toList_iff.2 (Array.mem_of_getElem? hf), ?_⟩
    rw [(step_eq_of_emittedAt (h.logs hf)).1]
    exact List.mem_filter.2 ⟨hi, decide_eq_true howner⟩

/-- The logs of a frame name steps that it owns, and those of another frame others. -/
theorem Emitted.nodup_eventSteps (h : tree.Emitted steps l) (hl : l.Nodup) :
    tree.eventSteps.Nodup := by
  have hframe {id : Nat} (hid : id < tree.frames.toList.length) :
      tree.frame? id = some tree.frames.toList[id] := by
    rw [frame?, ← Array.getElem?_toList, List.getElem?_eq_getElem hid]
  rw [tree.perm_eventSteps.nodup_iff, List.nodup_flatMap]
  constructor
  · intro f hf
    obtain ⟨id, hid, rfl⟩ := List.mem_iff_getElem.1 hf
    rw [(step_eq_of_emittedAt (h.logs (hframe hid))).1]
    exact hl.filter _
  · rw [List.pairwise_iff_getElem]
    intro id id' hid hid' hlt i hi hi'
    dsimp only at hi hi'
    rw [(step_eq_of_emittedAt (h.logs (hframe hid))).1] at hi
    rw [(step_eq_of_emittedAt (h.logs (hframe hid'))).1] at hi'
    have howner := of_decide_eq_true (List.mem_filter.1 hi).2
    have howner' := of_decide_eq_true (List.mem_filter.1 hi').2
    exact Nat.ne_of_lt hlt (Option.some.inj (howner.symm.trans howner'))

/-- Sorting the logs gives back the order of the steps that emitted them, each once. -/
theorem Emitted.eventSteps_eq (h : tree.Emitted steps l) (hl : l.Pairwise (· < ·)) :
    tree.eventSteps = l := by
  have hl' : l.Nodup := hl.imp Nat.ne_of_lt
  have hsame : tree.eventSteps.Perm l :=
    (List.perm_ext_iff_of_nodup (h.nodup_eventSteps hl') hl').2 h.mem_eventSteps_iff
  exact hsame.eq_of_pairwise (fun _ _ _ _ => Nat.le_antisymm) tree.pairwise_eventSteps
    (hl.imp Nat.le_of_lt)

theorem Emitted.sortedLogs (h : tree.Emitted steps l) (hl : l.Pairwise (· < ·)) :
    List.Forall₂ (fun i p => tree.Leaves steps i p.1 p.2) l tree.sortedLogs := by
  rw [← h.eventSteps_eq hl, eventSteps, List.forall₂_map_left_iff, List.forall₂_same]
  exact fun p hp => (h.leaves hp).2

end CallTree

end TxTrace

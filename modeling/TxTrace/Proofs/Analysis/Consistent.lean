import TxTrace.Analysis.Failure
import TxTrace.Proofs.CallTree.Fault
import TxTrace.Proofs.Machine.Excerpt

/-!
What is said of a transaction does not contradict itself (`Analysis.consistent_ofTransaction`). Most of
it follows the status of the outermost frame. Where a failure began can be shown as soon as the trace
has a step: every frame but the outermost one ran a step or was called by one, and then the outermost
one ran as well.
-/

namespace TxTrace

namespace CallTree

variable {tree : CallTree} {steps : Nat}

/-- If any frame ran, the outermost one did. -/
theorem WellFormed.isSome_stop_root (h : tree.WellFormed steps) {id : Nat} {f : Frame}
    (hf : tree.frame? id = some f) (hran : f.stop.isSome) : tree.root.stop.isSome := by
  induction id using Nat.strong_induction_on generalizing f with
  | h id ih =>
    rcases Nat.eq_zero_or_pos id with rfl | hid
    · obtain rfl := Option.some.inj (tree.frame?_root.symm.trans hf)
      exact hran
    · obtain ⟨p, g, hparent, hlt, hg, _⟩ := h.caller hf hid
      obtain ⟨last, hlast⟩ := Option.isSome_iff_exists.1 hran
      obtain ⟨last', hlast', _⟩ := h.nested hf hparent hg hlast
      exact ih p hlt hg (hlast' ▸ rfl)

theorem WellFormed.exists_frame?_of_owner? (h : tree.WellFormed steps) {k : Nat} (hk : k < steps) :
    ∃ owner g, tree.owner? k = some owner ∧ tree.frame? owner = some g := by
  obtain ⟨owner, g, howner, hg, _⟩ := h.owner hk
  exact ⟨owner, g, howner, hg⟩

/-- Every frame of a trace with steps ran one, or was called by one. -/
theorem WellFormed.stop_or_callStep (h : tree.WellFormed steps) (hs : tree.Sited) (hsteps : 0 < steps)
    {id : Nat} {f : Frame} (hf : tree.frame? id = some f) :
    ∃ k, f.stop.or f.callStep = some k ∧ k < steps := by
  cases hstop : f.stop with
  | some last => exact ⟨last, rfl, (h.range hf hstop).2⟩
  | none =>
    have hid : 0 < id := by
      apply Nat.pos_of_ne_zero
      rintro rfl
      obtain ⟨owner, g, _, hg, ⟨last, hlast, _⟩, _⟩ := h.owner hsteps
      have hran := h.isSome_stop_root hg (hlast ▸ rfl)
      obtain rfl := Option.some.inj (tree.frame?_root.symm.trans hf)
      rw [hstop] at hran
      cases hran
    have hcall := hs.stop_or_callStep hf hid
    rw [hstop, Option.none_or] at hcall
    obtain ⟨_, p, _, howner⟩ := hs.called hf hcall
    refine ⟨f.lastStep, hcall, ?_⟩
    rw [← h.owners_size]
    exact (Array.getElem?_eq_some_iff.1 (Option.filter_eq_some_iff.1 howner).1).1

end CallTree

namespace Registry

variable {r : Registry} {pad : Nat}

/-- No source text of a contract is so long that the number of a line and the pad need more than 64 bits. -/
def LeavesRoom (r : Registry) (pad : Nat) : Prop :=
  ∀ f c file text, r.contractOf? f = some c → c.sourceText? file = some text →
    (Text.utf8 text).length + pad < max64

theorem LeavesRoom.exists_placeText_eq_ok (h : r.LeavesRoom pad) (f : Frame) (s : Step) :
    ∃ text, r.placeText f s pad = .ok text := by
  unfold placeText
  split
  · exact ⟨_, rfl⟩
  · split
    · next htext _ =>
      obtain ⟨c, hc, htext⟩ := Option.bind_eq_some_iff.1 htext
      have hroom := h f c _ _ hc htext
      have hpad : (UInt64.ofNat pad).toNat = pad := Machine.toNat_ofNat (by omega)
      rw [Machine.excerpt_eq_ok (by rwa [hpad])]
      exact ⟨_, rfl⟩
    · exact ⟨_, rfl⟩

end Registry

namespace Analysis

variable {a : Analysis} {e : Execution}

theorem root?_of_execution (he : a.execution = some e) : a.root? = some e.tree.root := by
  simp [root?, tree?, he]

theorem fault?_of_execution (he : a.execution = some e) : a.fault? = e.tree.fault? := by
  simp [fault?, tree?, he]

theorem faultFrame?_of_execution (he : a.execution = some e) :
    a.faultFrame? = e.tree.fault?.bind e.tree.frame? := by
  simp [faultFrame?, fault?_of_execution he, tree?, he]

theorem isSome_returnValue?_iff (he : a.execution = some e) :
    a.returnValue?.isSome ↔ e.tree.root.status = .success := by
  simp [returnValue?, succeeded?, root?_of_execution he, Option.filter_some]

theorem returns_eq_none (he : a.execution = some e) (hstatus : e.tree.root.status ≠ .success) :
    a.returnValue? = none ∧ a.results? = none := by
  simp [returnValue?, results?, succeeded?, root?_of_execution he, Option.filter_some, hstatus]

theorem receiptOutcome_code (a : Analysis) : a.receiptOutcome.code =
    match a.transaction.receipt with
    | some receipt => if receipt.status then 1 else 0
    | none => -1 := by
  unfold receiptOutcome
  cases a.transaction.receipt with
  | none => rfl
  | some receipt =>
    dsimp only
    split
    · rfl
    · rfl

theorem outcome_of_execution (he : a.execution = some e) : a.outcome =
    match e.tree.root.status with
    | .success => .success
    | .reverted | .invalid => .failed
    | .unknown => a.receiptOutcome := by
  simp only [outcome, root?_of_execution he, Option.map_some]
  cases e.tree.root.status <;> rfl

theorem outcome_of_isFailure (he : a.execution = some e) (hfailed : e.tree.root.status.isFailure) :
    a.outcome = .failed := by
  rw [outcome_of_execution he]
  cases hstatus : e.tree.root.status with
  | reverted | invalid => rfl
  | success | unknown =>
    rw [hstatus] at hfailed
    cases hfailed

/-! ### Why it failed -/

/-- A transaction fails with a frame that failed with all that stands around it. -/
theorem exists_faultFrame? (he : a.execution = some e) (h : e.tree.WellFormed e.steps.size)
    (hs : e.tree.Sited) (hfailed : e.tree.root.status.isFailure) :
    ∃ id f, a.fault? = some id ∧ e.tree.frame? id = some f ∧ a.faultFrame? = some f ∧
      f.status.isFailure ∧ ∀ c ∈ e.tree.ancestors id, e.tree.failedAt c := by
  rw [← CallTree.failedAt_zero] at hfailed
  obtain ⟨id, hfault, hfailed', haround, _⟩ := h.fault?_of_failed_root hs hfailed
  obtain ⟨f, hf, hstatus⟩ := CallTree.failedAt_iff.1 hfailed'
  refine ⟨id, f, (fault?_of_execution he).trans hfault, hf, ?_, hstatus, haround⟩
  rw [faultFrame?_of_execution he, hfault, Option.bind_some, hf]

theorem revertReason?_of_execution (he : a.execution = some e) : a.revertReason? =
    if e.tree.root.status.isFailure then a.faultFrame?.map a.registry.revertReason else none := by
  simp only [revertReason?, root?_of_execution he, Option.bind_eq_bind, Option.bind_some]
  split
  · cases a.faultFrame? <;> rfl
  · rfl

/-- There are words for every reason. -/
theorem isSome_revertMessage? (he : a.execution = some e) :
    a.revertMessage?.isSome = a.revertReason?.isSome := by
  unfold revertMessage?
  cases hreason : a.revertReason? with
  | none => rfl
  | some reason =>
    rw [revertReason?_of_execution he] at hreason
    split at hreason
    · obtain ⟨f, hf, _⟩ := Option.map_eq_some_iff.1 hreason
      simp only [hf, Option.bind_eq_bind, Option.bind_some]
      split
      · split
        · rfl
        · rfl
      · rfl
    · cases hreason

theorem isSome_revertReason?_iff (he : a.execution = some e) (h : e.tree.WellFormed e.steps.size)
    (hs : e.tree.Sited) : a.revertReason?.isSome ↔ e.tree.root.status.isFailure := by
  rw [revertReason?_of_execution he]
  split
  · next hfailed =>
    obtain ⟨id, f, _, _, hframe, _⟩ := exists_faultFrame? he h hs hfailed
    simp [hframe, hfailed]
  · next hfailed => simp [hfailed]

/-- No reason is given for what did not fail. -/
theorem reasons_eq_none (he : a.execution = some e) (hstatus : ¬ e.tree.root.status.isFailure) :
    a.revertReason? = none ∧ a.revertMessage? = none := by
  have hreason : a.revertReason? = none := by rw [revertReason?_of_execution he, if_neg hstatus]
  refine ⟨hreason, ?_⟩
  rw [← Option.not_isSome_iff_eq_none, isSome_revertMessage? he, hreason]
  simp

/-- Where the failure began is shown exactly if a frame failed and the trace has a step. -/
theorem isSome_failure?_iff (he : a.execution = some e) (h : e.tree.WellFormed e.steps.size)
    (hs : e.tree.Sited) (pad : Nat) :
    (a.failure? pad).isSome ↔ a.faultFrame?.isSome ∧ 0 < e.steps.size := by
  unfold failure?
  simp only [he, Option.bind_eq_bind, Option.bind_some]
  cases hframe : a.faultFrame? with
  | none => simp
  | some f =>
    simp only [Option.bind_some, Option.isSome_some, true_and]
    constructor
    · intro hsome
      obtain ⟨text, htext⟩ := Option.isSome_iff_exists.1 hsome
      obtain ⟨k, _, hstep⟩ := Option.bind_eq_some_iff.1 htext
      obtain ⟨s, hs, _⟩ := Option.bind_eq_some_iff.1 hstep
      exact Nat.lt_of_le_of_lt (Nat.zero_le k) (Array.getElem?_eq_some_iff.1 hs).1
    · intro hsteps
      rw [faultFrame?_of_execution he] at hframe
      obtain ⟨id, _, hf⟩ := Option.bind_eq_some_iff.1 hframe
      obtain ⟨k, hstop, hk⟩ := h.stop_or_callStep hs hsteps hf
      obtain ⟨owner, g, howner, hg⟩ := h.exists_frame?_of_owner? hk
      simp [hstop, Array.getElem?_eq_getElem hk, howner, hg]

/-- Where the failure began is shown without a fault, if no pad is too large for the texts. -/
theorem exists_failure?_eq_ok {pad : Nat} (h : a.registry.LeavesRoom pad)
    {answer : Except (Machine.Halt Empty) String} (hanswer : a.failure? pad = some answer) :
    ∃ text, answer = .ok text := by
  unfold failure? at hanswer
  obtain ⟨_, _, hframe⟩ := Option.bind_eq_some_iff.1 hanswer
  obtain ⟨_, _, hindex⟩ := Option.bind_eq_some_iff.1 hframe
  obtain ⟨_, _, hstep⟩ := Option.bind_eq_some_iff.1 hindex
  obtain ⟨s, _, howner⟩ := Option.bind_eq_some_iff.1 hstep
  obtain ⟨_, _, hplace⟩ := Option.bind_eq_some_iff.1 howner
  obtain ⟨f, _, hplace⟩ := Option.bind_eq_some_iff.1 hplace
  obtain rfl := Option.some.inj hplace
  exact h.exists_placeText_eq_ok f s

/-- The steps are listed in their order, each with the frame that ran it. -/
theorem locatedSteps?_of_execution (he : a.execution = some e) (h : e.tree.WellFormed e.steps.size) :
    ∃ located, a.locatedSteps? = some located ∧
      located.map (fun l => (l.step, l.index)) = e.steps.toList.zipIdx ∧
      ∀ l ∈ located, e.tree.owner? l.index = some l.owner ∧ e.tree.frame? l.owner = some l.frame := by
  refine ⟨_, by rw [locatedSteps?, he, Option.map_some], ?_, ?_⟩
  · rw [List.map_filterMap]
    conv_rhs => rw [← List.filterMap_some (l := e.steps.toList.zipIdx)]
    apply List.filterMap_congr
    rintro ⟨s, k⟩ hmem
    have hs : e.steps.toList[k]? = some s := List.mem_zipIdx_iff_getElem?.1 hmem
    have hk : k < e.steps.size := by
      rw [← Array.length_toList]
      exact (List.getElem?_eq_some_iff.1 hs).1
    obtain ⟨owner, g, howner, hg⟩ := h.exists_frame?_of_owner? hk
    simp [howner, hg]
  · intro l hl
    obtain ⟨⟨s, k⟩, _, hlocated⟩ := List.mem_filterMap.1 hl
    obtain ⟨owner, howner, hrest⟩ := Option.bind_eq_some_iff.1 hlocated
    obtain ⟨f, hf, hl⟩ := Option.bind_eq_some_iff.1 hrest
    obtain rfl := Option.some.inj hl
    exact ⟨howner, hf⟩

/-- What an analysis with a trace says agrees with the status of the outermost frame, and with itself. -/
structure Consistent (a : Analysis) (e : Execution) : Prop where
  returned_iff : a.returnValue?.isSome ↔ e.tree.root.status = .success
  of_success : e.tree.root.status = .success →
    a.outcome.code = 1 ∧ a.revertReason? = none ∧ a.revertMessage? = none
  reason_iff : a.revertReason?.isSome ↔ e.tree.root.status.isFailure
  message_iff : a.revertMessage?.isSome ↔ e.tree.root.status.isFailure
  of_failure : e.tree.root.status.isFailure →
    a.outcome.code = 0 ∧ a.returnValue? = none ∧ a.results? = none
  /-- A failure began in a frame that failed with all that stands around it. -/
  fault : e.tree.root.status.isFailure → ∃ id f, a.fault? = some id ∧ e.tree.frame? id = some f ∧
    a.faultFrame? = some f ∧ f.status.isFailure ∧ ∀ c ∈ e.tree.ancestors id, e.tree.failedAt c
  /-- Of a trace that breaks off nothing is said but what the receipt says. -/
  of_unknown : e.tree.root.status = .unknown →
    a.returnValue? = none ∧ a.revertReason? = none ∧ a.revertMessage? = none ∧
      a.outcome.code = match a.transaction.receipt with
        | some receipt => if receipt.status then 1 else 0
        | none => -1
  failure_iff : ∀ pad, (a.failure? pad).isSome ↔ a.faultFrame?.isSome ∧ 0 < e.steps.size
  /-- Only a pad close to the largest number keeps the place of a failure from being shown. -/
  failure_ok : ∀ pad answer, a.registry.LeavesRoom pad → a.failure? pad = some answer →
    ∃ text, answer = .ok text
  /-- The steps are listed in their order, each with the frame that ran it. -/
  located : ∃ located, a.locatedSteps? = some located ∧
    located.map (fun l => (l.step, l.index)) = e.steps.toList.zipIdx ∧
    ∀ l ∈ located, e.tree.owner? l.index = some l.owner ∧ e.tree.frame? l.owner = some l.frame

/-- What is shown of a trace is its tree. -/
theorem exists_trace_of_execution {tx : Transaction} {source : TraceSource} {r : Registry}
    {e : Execution} (he : (ofTransaction tx source r).execution = some e) :
    ∃ trace : Trace, e = ⟨trace.steps, ((CallTree.ofTrace tx trace).1.named r).1⟩ := by
  cases source with
  | unavailable reason => cases he
  | available json =>
    have hexecute : (execute tx json r).1 = some e := he
    unfold execute at hexecute
    cases htrace : Trace.ofJson json with
    | error cause =>
      rw [htrace] at hexecute
      cases hexecute
    | ok trace =>
      rw [htrace] at hexecute
      exact ⟨trace, (Option.some.inj hexecute).symm⟩

theorem consistent_ofTransaction (tx : Transaction) (source : TraceSource) (r : Registry)
    {e : Execution} (he : (ofTransaction tx source r).execution = some e) :
    (ofTransaction tx source r).Consistent e := by
  obtain ⟨trace, htrace⟩ := exists_trace_of_execution he
  have hwellFormed : e.tree.WellFormed e.steps.size := by
    rw [htrace, ← CallTree.size_owners_ofTrace tx trace]
    exact .of_places (CallTree.arranged_named_ofTrace tx trace r)
      (CallTree.ranged_named_ofTrace tx trace r)
  have hsited : e.tree.Sited := by
    rw [htrace]
    exact CallTree.sited_named_ofTrace tx trace r
  generalize ofTransaction tx source r = a at he
  constructor
  case returned_iff => exact isSome_returnValue?_iff he
  case of_success =>
    intro hstatus
    refine ⟨?_, reasons_eq_none he (by simp [hstatus, Status.isFailure])⟩
    rw [outcome_of_execution he, hstatus]
    rfl
  case reason_iff => exact isSome_revertReason?_iff he hwellFormed hsited
  case message_iff =>
    rw [isSome_revertMessage? he]
    exact isSome_revertReason?_iff he hwellFormed hsited
  case of_failure =>
    intro hfailed
    have hstatus : e.tree.root.status ≠ .success := by
      intro hstatus
      rw [hstatus] at hfailed
      cases hfailed
    rw [outcome_of_isFailure he hfailed]
    exact ⟨rfl, returns_eq_none he hstatus⟩
  case fault => exact exists_faultFrame? he hwellFormed hsited
  case of_unknown =>
    intro hstatus
    obtain ⟨hreason, hmessage⟩ := reasons_eq_none he (by simp [hstatus, Status.isFailure])
    refine ⟨(returns_eq_none he (by simp [hstatus])).1, hreason, hmessage, ?_⟩
    rw [outcome_of_execution he, hstatus]
    exact a.receiptOutcome_code
  case failure_iff => exact isSome_failure?_iff he hwellFormed hsited
  case failure_ok => exact fun pad answer hroom hanswer => exists_failure?_eq_ok hroom hanswer
  case located => exact locatedSteps?_of_execution he hwellFormed

/-- The trace of a transaction that reverts at once, as a node gives it. -/
def revertingTrace : Json :=
  .obj [("structLogs", .arr [.obj
    [("pc", .int 0), ("op", .str "REVERT"), ("depth", .int 1), ("gas", .int 100),
      ("gasCost", .int 0), ("stack", .arr [.str "0x0", .str "0x0"])]])]

/-- The analysis of a call of the contract `0xbb` that reverts at once. -/
def revertingAnalysis : Analysis :=
  ofTransaction ⟨none, 0xee, some 0xbb, [], 0, 0, 0, none, none⟩ (.available revertingTrace)
    Registry.empty

theorem isSome_execution_revertingAnalysis : revertingAnalysis.execution.isSome := by decide +kernel

theorem consistent_ofTransaction_revertingTrace :
    ∃ e, revertingAnalysis.execution = some e ∧ e.tree.root.status = .reverted ∧
      revertingAnalysis.Consistent e := by
  refine ⟨revertingAnalysis.execution.get isSome_execution_revertingAnalysis,
    (Option.some_get _).symm, by decide +kernel, ?_⟩
  exact consistent_ofTransaction _ (.available revertingTrace) Registry.empty
    (Option.some_get _).symm

end Analysis

end TxTrace

import TxTrace.Analysis.Basic
import TxTrace.Proofs.CallTree.Emission

/-!
The events that a trace shows (`Analysis.events_ofTrace`). There is one for each step that emitted a log,
in the order of the steps, whatever became of the frame: what a failed frame emitted is an event as
well, though the failure took it back (`Analysis.rolledBack_eventSteps`).
-/

namespace TxTrace

namespace Registry

/-- The event is what the log says, read against an event that is known and that its first topic names,
    or it is raw: the topics and the data as they are. -/
inductive Shows (r : Registry) (log : Log) : Abi.DecodedEvent → Prop
  | decoded {c : Contract} {entry : Abi.Entry} {event : Abi.DecodedEvent} (hc : c ∈ r.contracts)
      (hentry : entry ∈ c.abi.events) (hnamed : entry.anonymous = false)
      (htopic : log.topics.head? = some entry.topic)
      (hevent : Abi.decodeEvent log.topics log.data entry = .ok event) :
      Shows r log { event with address := some log.address }
  | raw {event : Abi.DecodedEvent} (haddress : event.address = some log.address)
      (hvalues : event.params.map (·.value) =
        log.topics.map (fun topic => .fixedBytes topic.toBytes) ++ [.bytes log.data])
      (hraw : ∀ p ∈ event.params, p.decoded = false) : Shows r log event

theorem mem_contracts_of_find? {r : Registry} {address : Address} {c : Contract}
    (h : r.find? address = some c) : c ∈ r.contracts := by
  obtain ⟨e, he, rfl⟩ := Option.map_eq_some_iff.1 h
  exact List.mem_map_of_mem (List.mem_of_find?_eq_some he)

/-- The event that a topic names is one of a known contract. -/
theorem exists_of_eventOf? {r : Registry} {code : Address} {log : Log} {entry : Abi.Entry}
    (h : r.eventOf? code log = some entry) :
    ∃ c ∈ r.contracts, entry ∈ c.abi.events ∧ entry.anonymous = false ∧
      log.topics.head? = some entry.topic := by
  obtain ⟨topic, htopic, h⟩ := Option.bind_eq_some_iff.1 h
  obtain ⟨c, hc, hentry⟩ : ∃ c ∈ r.contracts, c.abi.eventByTopic topic = some entry := by
    rcases Option.or_eq_some_iff.1 h with h | ⟨_, h⟩
    · obtain ⟨c, hc, hentry⟩ := Option.bind_eq_some_iff.1 h
      exact ⟨c, mem_contracts_of_find? hc, hentry⟩
    · obtain ⟨p, hp, rfl⟩ := Option.map_eq_some_iff.1 h
      obtain ⟨c, hc, hcp⟩ := List.exists_of_findSome?_eq_some hp
      obtain ⟨e, he, rfl⟩ := Option.map_eq_some_iff.1 hcp
      exact ⟨c, hc, he⟩
  have hnamed := List.find?_some hentry
  simp only [Bool.and_eq_true, Bool.not_eq_true', beq_iff_eq] at hnamed
  refine ⟨c, hc, List.mem_of_find?_eq_some hentry, hnamed.1, ?_⟩
  rw [htopic, hnamed.2]

theorem shows_undecoded (r : Registry) (log : Log) : r.Shows log log.undecoded := by
  refine .raw rfl ?_ ?_
  · have htopics : (log.topics.mapIdx Log.topicParam).map (·.value) =
        log.topics.map fun topic => .fixedBytes topic.toBytes := by
      apply List.ext_getElem?
      intro k
      simp only [List.getElem?_map, List.getElem?_mapIdx, Option.map_map]
      rfl
    rw [Log.undecoded, List.map_append, htopics]
    rfl
  · intro p hp
    rcases List.mem_append.1 hp with hp | hp
    · obtain ⟨k, _, rfl⟩ := List.mem_mapIdx.1 hp
      rfl
    · obtain rfl := List.mem_singleton.1 hp
      rfl

/-- A log is read against an event that is known, or shown raw. -/
theorem shows_event (r : Registry) (code : Address) (log : Log) :
    r.Shows log (r.event code log).1 := by
  unfold event
  split
  · exact shows_undecoded r log
  · next entry hentry =>
    obtain ⟨c, hc, hmem, hnamed, htopic⟩ := exists_of_eventOf? hentry
    split
    · next event hevent => exact .decoded hc hmem hnamed htopic hevent
    · exact shows_undecoded r log

end Registry

/-- The logs of a tree, in the order of the steps, are what its events show, one each. So the steps that
    the events come from are `CallTree.eventSteps`. -/
theorem Registry.treeEvents_eq (r : Registry) (tree : CallTree) :
    r.treeEvents tree = tree.sortedLogs.map fun (f, log) => r.event (f.callee.getD log.address) log :=
  rfl

namespace CallTree

/-- Whether the step at `i` belongs to a frame that failed, or that stands inside one that failed. -/
def rolledBack (tree : CallTree) (i : Nat) : Bool :=
  (tree.owner? i).any fun id => tree.failedAt id || (tree.ancestors id).any tree.failedAt

end CallTree

namespace Analysis

theorem events_of_ofJson (tx : Transaction) {json : Json} {trace : Trace} (r : Registry)
    (h : Trace.ofJson json = .ok trace) :
    (ofTransaction tx (.available json) r).events =
      (r.treeEvents ((CallTree.ofTrace tx trace).1.named r).1).map (·.1) := by
  simp only [ofTransaction, execute, h]

/-- The events are those of the logs that the steps emitted, in the order of the steps. -/
theorem forall₂_treeEvents {tree : CallTree} {steps : Array Step} {l : List Nat} (r : Registry)
    (h : tree.Emitted steps l) (hl : l.Pairwise (· < ·)) :
    List.Forall₂
      (fun i event => ∃ f log, tree.Leaves steps i f log ∧
        event = (r.event (f.callee.getD log.address) log).1) l ((r.treeEvents tree).map (·.1)) := by
  rw [r.treeEvents_eq, List.map_map, List.forall₂_map_right_iff]
  exact (h.sortedLogs hl).imp fun i p hp => ⟨p.1, p.2, hp, rfl⟩

/-- Each step that emits a log has one log, with the frame that owns it, and one event, in the order of
    the steps. There are no others. -/
theorem events_ofTrace (tx : Transaction) (trace : Trace) (r : Registry) :
    let tree := ((CallTree.ofTrace tx trace).1.named r).1
    let logSteps := Progress.logSteps tx trace.steps trace.steps.size
    let events := (r.treeEvents tree).map (·.1)
    (∀ id f, tree.frame? id = some f →
      List.Forall₂ (EmittedAt trace.steps) (logSteps.filter (tree.owner? · = some id))
        f.logs.toList) ∧
      List.Forall₂ (fun i event => ∃ f log, tree.Leaves trace.steps i f log ∧ r.Shows log event)
        logSteps events ∧
      ∀ json, Trace.ofJson json = .ok trace →
        (ofTransaction tx (.available json) r).events = events := by
  intro tree logSteps events
  have hemitted : tree.Emitted trace.steps logSteps := CallTree.emitted_named_ofTrace tx trace r
  refine ⟨fun id f hf => hemitted.logs hf, ?_, fun json hjson => events_of_ofJson tx r hjson⟩
  have hevents := forall₂_treeEvents r hemitted (Progress.pairwise_logSteps tx trace.steps _)
  refine hevents.imp fun i event hevent => ?_
  obtain ⟨f, log, hleaves, rfl⟩ := hevent
  exact ⟨f, log, hleaves, r.shows_event _ log⟩

/-- The trace in a JSON value that holds one. -/
def traceIn (json : Json) (h : (Trace.ofJson json).toOption.isSome) : Trace :=
  (Trace.ofJson json).toOption.get h

theorem ofJson_traceIn {json : Json} (h : (Trace.ofJson json).toOption.isSome) :
    Trace.ofJson json = .ok (traceIn json h) :=
  eq_ok_of_toOption (Option.some_get h).symm

/-- The record of a step. -/
def stepRecord (op : String) (depth : Int) (stack : List String) (memory : Bytes) : Json :=
  .obj [("pc", .int 0), ("op", .str op), ("depth", .int depth), ("gas", .int 100), ("gasCost", .int 1),
    ("stack", .arr (stack.map .str)), ("memory", .str (Hex.ofBytes memory))]

/-- The outermost frame emits a log before it calls another contract, which emits one with a topic, and
    two more afterwards, the first of which lacks its topic. -/
def loggingJson : Json :=
  .arr [stepRecord "LOG0" 1 ["0x2", "0x0"] [7, 8],
    stepRecord "CALL" 1 ["0x0", "0x0", "0x0", "0x0", "0x0", "0xcc", "0x0"] [7, 8],
    stepRecord "LOG1" 2 ["0x9", "0x0", "0x0"] [], stepRecord "STOP" 2 [] [],
    stepRecord "LOG1" 1 ["0x1", "0x0"] [7, 8], stepRecord "LOG0" 1 ["0x1", "0x1"] [7, 8]]

def loggingTrace : Trace := traceIn loggingJson (by decide +kernel)

def loggingTree : CallTree :=
  ((CallTree.ofTrace CallTree.callOfContract loggingTrace).1.named Registry.empty).1

theorem events_ofTrace_loggingJson :
    List.Forall₂
      (fun i event => ∃ f log, loggingTree.Leaves loggingTrace.steps i f log ∧
        Registry.empty.Shows log event)
      [0, 2, 5] (ofTransaction CallTree.callOfContract (.available loggingJson) Registry.empty).events := by
  obtain ⟨_, hshown, hanalysis⟩ := events_ofTrace CallTree.callOfContract loggingTrace Registry.empty
  have hsteps : Progress.logSteps CallTree.callOfContract loggingTrace.steps loggingTrace.steps.size =
      [0, 2, 5] := by
    decide +kernel
  rw [hsteps] at hshown
  rw [hanalysis loggingJson (ofJson_traceIn _)]
  exact hshown

/-- What became of a frame decides nothing about the events: of the steps that are taken back all those
    have an event that emitted a log. So no event comes from a step that is taken back exactly if no
    such step emitted a log. -/
theorem rolledBack_eventSteps (tx : Transaction) (trace : Trace) (r : Registry) :
    let tree := ((CallTree.ofTrace tx trace).1.named r).1
    let logSteps := Progress.logSteps tx trace.steps trace.steps.size
    let events := (r.treeEvents tree).map (·.1)
    List.Forall₂
        (fun i event => ∃ f log, tree.Leaves trace.steps i f log ∧
          event = (r.event (f.callee.getD log.address) log).1) tree.eventSteps events ∧
      tree.eventSteps.filter tree.rolledBack = logSteps.filter tree.rolledBack ∧
      ((∀ i ∈ tree.eventSteps, ¬ tree.rolledBack i) ↔ ∀ i ∈ logSteps, ¬ tree.rolledBack i) ∧
      ∀ json, Trace.ofJson json = .ok trace →
        (ofTransaction tx (.available json) r).events = events := by
  intro tree logSteps events
  have hemitted : tree.Emitted trace.steps logSteps := CallTree.emitted_named_ofTrace tx trace r
  have hlt := Progress.pairwise_logSteps tx trace.steps trace.steps.size
  have hsteps : tree.eventSteps = logSteps := hemitted.eventSteps_eq hlt
  rw [hsteps]
  exact ⟨forall₂_treeEvents r hemitted hlt, rfl, .rfl, fun json hjson => events_of_ofJson tx r hjson⟩

/-- A contract emits a log and reverts. -/
def revertedJson : Json :=
  .arr [stepRecord "LOG0" 1 ["0x0", "0x0"] [], stepRecord "REVERT" 1 ["0x0", "0x0"] []]

def revertedTrace : Trace := traceIn revertedJson (by decide +kernel)

def revertedTree : CallTree :=
  ((CallTree.ofTrace CallTree.callOfContract revertedTrace).1.named Registry.empty).1

theorem rolledBack_eventSteps_revertedJson :
    revertedTree.eventSteps.filter revertedTree.rolledBack = [0] ∧
      (ofTransaction CallTree.callOfContract (.available revertedJson) Registry.empty).events =
        (Registry.empty.treeEvents revertedTree).map (·.1) := by
  obtain ⟨_, htaken, _, hanalysis⟩ :=
    rolledBack_eventSteps CallTree.callOfContract revertedTrace Registry.empty
  refine ⟨htaken.trans ?_, hanalysis revertedJson (ofJson_traceIn _)⟩
  decide +kernel

/-- Events do not all come from steps that stand. -/
theorem not_forall_eventSteps_not_rolledBack :
    ¬ ∀ (tx : Transaction) (trace : Trace) (r : Registry),
        ∀ i ∈ ((CallTree.ofTrace tx trace).1.named r).1.eventSteps,
          ¬ ((CallTree.ofTrace tx trace).1.named r).1.rolledBack i := by
  intro h
  have hemits : 0 ∈ revertedTree.eventSteps := by decide +kernel
  have hreverts : revertedTree.rolledBack 0 := by decide +kernel
  exact h CallTree.callOfContract revertedTrace Registry.empty 0 hemits hreverts

end Analysis

end TxTrace

import TxTrace.Proofs.Analysis.Deployment
import TxTrace.Proofs.Analysis.Events
import TxTrace.Proofs.Trace.Records

/-!
Records that are no steps. An analysis lists them by their positions, and nothing else in it shows that
they were there (`Analysis.dropped_records_inert`).
-/

namespace TxTrace

namespace Anomaly

/-- A record was dropped. -/
def isMalformedStep : Anomaly → Bool
  | malformedStep _ _ => true
  | _ => false

theorem IsOfSteps.isMalformedStep {a : Anomaly} (h : a.IsOfSteps) : a.isMalformedStep = false := by
  cases a with
  | malformedStep => cases h
  | _ => rfl

theorem IsUndecoded.isMalformedStep {a : Anomaly} (h : a.IsUndecoded) : a.isMalformedStep = false := by
  cases a with
  | malformedStep => cases h
  | _ => rfl

end Anomaly

theorem Registry.isMalformedStep_of_mem_event {r : Registry} {code : Address} {log : Log} {a : Anomaly}
    (h : a ∈ (r.event code log).2) : a.isMalformedStep = false := by
  unfold event at h
  split at h
  · cases h
  · split at h
    · cases h
    · obtain rfl := List.mem_singleton.1 h
      rfl

/-- The records that were dropped, as they are reported. -/
def Trace.malformedSteps (trace : Trace) : List Anomaly :=
  trace.dropped.map fun (position, cause) => .malformedStep position cause

namespace Analysis

/-- All that an analysis reports but the records that were dropped. -/
def reported (tx : Transaction) (trace : Trace) (r : Registry) : List Anomaly :=
  CallTree.anomalies tx trace r ++
    (r.treeEvents ((CallTree.ofTrace tx trace).1.named r).1).flatMap (·.2)

theorem anomalies_of_ofJson (tx : Transaction) {json : Json} {trace : Trace} (r : Registry)
    (h : Trace.ofJson json = .ok trace) :
    (ofTransaction tx (.available json) r).anomalies = trace.malformedSteps ++ reported tx trace r := by
  simp only [ofTransaction, execute, h, reported, CallTree.anomalies, List.append_assoc]
  rfl

theorem isMalformedStep_of_mem_reported {tx : Transaction} {trace : Trace} {r : Registry} {a : Anomaly}
    (h : a ∈ reported tx trace r) : a.isMalformedStep = false := by
  rcases List.mem_append.1 h with h | h
  · rcases List.mem_append.1 h with h | h
    · exact (CallTree.isOfSteps_of_mem (Array.mem_toList_iff.1 h)).isMalformedStep
    · exact (CallTree.isUndecoded_of_mem_named h).isMalformedStep
  · obtain ⟨e, he, h⟩ := List.mem_flatMap.1 h
    obtain ⟨p, _, rfl⟩ := List.mem_map.1 he
    exact Registry.isMalformedStep_of_mem_event h

/-- The reports of dropped records are those of the trace. -/
theorem filter_isMalformedStep_anomalies (tx : Transaction) {json : Json} {trace : Trace} (r : Registry)
    (h : Trace.ofJson json = .ok trace) :
    (ofTransaction tx (.available json) r).anomalies.filter (·.isMalformedStep) = trace.malformedSteps ∧
      (ofTransaction tx (.available json) r).anomalies.filter (!·.isMalformedStep) =
        reported tx trace r := by
  have hdropped (a : Anomaly) (ha : a ∈ trace.malformedSteps) : a.isMalformedStep = true := by
    obtain ⟨p, _, rfl⟩ := List.mem_map.1 ha
    rfl
  have hreported (a : Anomaly) (ha : a ∈ reported tx trace r) : a.isMalformedStep = false :=
    isMalformedStep_of_mem_reported ha
  rw [anomalies_of_ofJson tx r h, List.filter_append, List.filter_append]
  constructor
  · have hnone : (reported tx trace r).filter (·.isMalformedStep) = [] :=
      List.filter_eq_nil_iff.2 fun a ha => by simp [hreported a ha]
    rw [List.filter_eq_self.2 hdropped, hnone, List.append_nil]
  · have hnone : trace.malformedSteps.filter (!·.isMalformedStep) = [] :=
      List.filter_eq_nil_iff.2 fun a ha => by simp [hdropped a ha]
    have hall : (reported tx trace r).filter (!·.isMalformedStep) = reported tx trace r :=
      List.filter_eq_self.2 fun a ha => by simp [hreported a ha]
    rw [hnone, hall, List.nil_append]

/-- An analysis has one step for each record that is one, in order, and one report of each other one, by
    its position. Records that are no steps, wherever they are put in a trace, change nothing but the
    reports of them. -/
theorem dropped_records_inert (tx : Transaction) (r : Registry) :
    (∀ records, Trace.records? (.arr records) = some records) ∧
      (∀ json records, Trace.records? json = some records →
        ∃ trace, Trace.ofJson json = .ok trace ∧ trace.Reads records ∧
          (ofTransaction tx (.available json) r).anomalies.filter (·.isMalformedStep) =
            trace.malformedSteps) ∧
      ∀ json padded, Trace.Padded json padded →
        let analysis := ofTransaction tx (.available json) r
        let analysis' := ofTransaction tx (.available padded) r
        (∀ trace, Trace.ofJson json = .ok trace →
            ∃ dropped, Trace.ofJson padded = .ok { trace with dropped }) ∧
          analysis' = { analysis with anomalies := analysis'.anomalies } ∧
          analysis'.anomalies.filter (!·.isMalformedStep) =
            analysis.anomalies.filter (!·.isMalformedStep) := by
  refine ⟨Trace.records?_arr, fun json records hrecords => ?_, fun json padded h => ?_⟩
  · obtain ⟨trace, htrace, hreads⟩ := Trace.reads_of_records? hrecords
    exact ⟨trace, htrace, hreads, (filter_isMalformedStep_anomalies tx r htrace).1⟩
  · intro analysis analysis'
    obtain ⟨herror, hread⟩ := Trace.exists_ofJson_of_padded h
    refine ⟨hread, ?_⟩
    cases htrace : Trace.ofJson json with
    | error cause =>
      have heq : analysis' = analysis := by
        simp only [analysis, analysis', ofTransaction, execute, htrace, herror cause htrace]
      rw [heq]
      exact ⟨rfl, rfl⟩
    | ok trace =>
      obtain ⟨dropped, hpadded⟩ := hread trace htrace
      refine ⟨?_, ?_⟩
      · -- neither the tree nor the events are built from what was dropped
        simp only [analysis, analysis', ofTransaction, execute, htrace, hpadded]
        rfl
      · rw [(filter_isMalformedStep_anomalies tx r htrace).2,
          (filter_isMalformedStep_anomalies tx r hpadded).2]
        rfl

/-- The records of a contract that emits a log and reverts. -/
def revertedRecords : List Json :=
  [stepRecord "LOG0" 1 ["0x0", "0x0"] [], stepRecord "REVERT" 1 ["0x0", "0x0"] []]

/-- The same with a value before each step that is none: no record at all, and one that lacks fields. -/
def interruptedRecords : List Json :=
  [.null, stepRecord "LOG0" 1 ["0x0", "0x0"] [], .obj [("depth", .int 3), ("op", .str "PUSH1")],
    stepRecord "REVERT" 1 ["0x0", "0x0"] []]

theorem paddedRecords_interruptedRecords : Trace.PaddedRecords revertedRecords interruptedRecords := by
  have hnull : Step.ofJson .null = .error (.wrongType .null .record) := rfl
  have hlacking : Step.ofJson (.obj [("depth", .int 3), ("op", .str "PUSH1")]) = .error (.missing "pc") := rfl
  exact .insert hnull (.keep _ (.insert hlacking (.keep _ .nil)))

/-- The trace of so many records, in the response of a node. -/
def respondedJson (records : List Json) : Json := Trace.response (.obj [("structLogs", .arr records)])

theorem dropped_records_inert_interrupted :
    let analysis := ofTransaction CallTree.callOfContract (.available (respondedJson revertedRecords)) .empty
    let analysis' :=
      ofTransaction CallTree.callOfContract (.available (respondedJson interruptedRecords)) .empty
    (∃ trace, Trace.ofJson (respondedJson interruptedRecords) = .ok trace ∧
      trace.Reads interruptedRecords ∧ trace.dropped.map (·.1) = [0, 2] ∧
      analysis'.anomalies.filter (·.isMalformedStep) = trace.malformedSteps) ∧
    analysis' = { analysis with anomalies := analysis'.anomalies } ∧
      analysis'.anomalies.filter (!·.isMalformedStep) =
        analysis.anomalies.filter (!·.isMalformedStep) := by
  intro analysis analysis'
  obtain ⟨-, hread, hinert⟩ := dropped_records_inert CallTree.callOfContract Registry.empty
  have hrecords : Trace.records? (respondedJson interruptedRecords) = some interruptedRecords := by
    rw [Trace.records?, respondedJson, Trace.payload_of_result rfl,
      Trace.payload_of_forall_ne (by simp [Json.get?])]
    rfl
  have hpositions : (Trace.ofJson (respondedJson interruptedRecords)).toOption.map
      (fun trace => trace.dropped.map (·.1)) = some [0, 2] := by
    decide +kernel
  have hpadded : Trace.Padded (respondedJson revertedRecords) (respondedJson interruptedRecords) :=
    .envelope [("id", .int 1), ("jsonrpc", .str "2.0")] []
      (.field [] [] (by decide) paddedRecords_interruptedRecords)
  obtain ⟨trace, htrace, hreads, hdropped⟩ := hread _ _ hrecords
  rw [htrace] at hpositions
  exact ⟨⟨trace, htrace, hreads, Option.some.inj hpositions, hdropped⟩, (hinert _ _ hpadded).2⟩

end Analysis

end TxTrace

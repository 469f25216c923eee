import TxTrace.Proofs.Analysis.Deployment

/-!
What becomes of the data of frames (`CallTree.accounted_named_ofTrace`). The input of a frame that calls a
known function or runs a known constructor decodes and is shown, or it does not and that is reported, once.
So it is with the output of a known function that succeeded. Of all other data nothing is shown and nothing
reported.
-/

namespace TxTrace

namespace Anomaly

/-- Why the input of the frame at `id` does not decode, if that is what the anomaly says. -/
def inputCause? (id : Nat) : Anomaly → Option Abi.DecodeError
  | undecodedInput frame cause => if frame = id then some cause else none
  | _ => none

/-- Why the output of the frame at `id` does not decode, if that is what the anomaly says. -/
def outputCause? (id : Nat) : Anomaly → Option Abi.DecodeError
  | undecodedOutput frame cause => if frame = id then some cause else none
  | _ => none

theorem inputCause?_eq_none (id : Nat) (a : Anomaly) (h : a.undecodedFrame? ≠ some id) :
    a.inputCause? id = none := by
  cases a with
  | undecodedInput => exact if_neg fun heq => h (congrArg some heq)
  | _ => rfl

theorem outputCause?_eq_none (id : Nat) (a : Anomaly) (h : a.undecodedFrame? ≠ some id) :
    a.outputCause? id = none := by
  cases a with
  | undecodedOutput => exact if_neg fun heq => h (congrArg some heq)
  | _ => rfl

end Anomaly

/-- Data is shown as the arguments that it decodes to, or it does not decode and the cause is reported,
    once. -/
inductive Accounted (decoded : Except Abi.DecodeError (List Abi.Argument)) :
    (shown : Option (List Abi.Argument)) → (causes : List Abi.DecodeError) → Prop
  | shown {arguments : List Abi.Argument} (h : decoded = .ok arguments) :
    Accounted decoded (some arguments) []
  | reported {cause : Abi.DecodeError} (h : decoded = .error cause) : Accounted decoded none [cause]

@[simp]
theorem accounted_ok_iff {arguments : List Abi.Argument} {shown : Option (List Abi.Argument)}
    {causes : List Abi.DecodeError} :
    Accounted (.ok arguments) shown causes ↔ shown = some arguments ∧ causes = [] := by
  constructor
  · intro h
    cases h with
    | shown h => exact ⟨congrArg some (Except.ok.inj h).symm, rfl⟩
    | reported h => cases h
  · rintro ⟨rfl, rfl⟩
    exact .shown rfl

@[simp]
theorem accounted_error_iff {cause : Abi.DecodeError} {shown : Option (List Abi.Argument)}
    {causes : List Abi.DecodeError} :
    Accounted (.error cause) shown causes ↔ shown = none ∧ causes = [cause] := by
  constructor
  · intro h
    cases h with
    | shown h => cases h
    | reported h => exact ⟨rfl, congrArg (fun cause => [cause]) (Except.error.inj h).symm⟩
  · rintro ⟨rfl, rfl⟩
    exact .reported rfl

section attempt

variable {anomaly : Abi.DecodeError → Anomaly} {cause? : Anomaly → Option Abi.DecodeError}

theorem accounted_attempt (decoded : Except Abi.DecodeError (List Abi.Argument))
    (hcause : ∀ cause, cause? (anomaly cause) = some cause) :
    Accounted decoded (attempt decoded anomaly).1 ((attempt decoded anomaly).2.filterMap cause?) := by
  cases decoded <;> simp [attempt, hcause]

theorem filterMap_attempt_eq_nil {α : Type} (decoded : Except Abi.DecodeError α)
    (hcause : ∀ cause, cause? (anomaly cause) = none) :
    (attempt decoded anomaly).2.filterMap cause? = [] := by
  rw [List.filterMap_eq_nil_iff]
  intro a ha
  obtain ⟨cause, -, rfl⟩ := mem_attempt_iff.1 ha
  exact hcause cause

end attempt

namespace Registry

variable {r : Registry} {f : Frame} {c : Contract} {function constructor : Abi.Entry} {data : Bytes}

/-- The frame calls a function of the contract whose code it runs, by the selector in front of its
    input. -/
def CallsFunction (r : Registry) (f : Frame) (function : Abi.Entry) : Prop :=
  f.callType.isCreate = false ∧ ∃ c selector, r.contractOf? f = some c ∧
    Selector.ofPayload? f.input = some selector ∧ c.abi.functionBySelector selector = some function

/-- The frame creates a contract, from the code of the one that it runs and `data` for the constructor. -/
def RunsConstructor (r : Registry) (f : Frame) (constructor : Abi.Entry) (data : Bytes) : Prop :=
  f.callType.isCreate = true ∧ ∃ c code, r.contractOf? f = some c ∧
    c.abi.constructor = some constructor ∧ c.creationCode = some code ∧ f.input = code ++ data

theorem name_of_contractOf? (hc : r.contractOf? f = some c) (id : Nat) :
    r.name id f = if f.callType.isCreate then c.nameCreation id f else c.nameCall id f := by
  rw [name, hc]

theorem contract_name (r : Registry) (id : Nat) (f : Frame) :
    (r.name id f).1.contract = (r.contractOf? f).map (·.name) := by
  cases hc : r.contractOf? f with
  | none =>
    rw [name, hc]
    rfl
  | some c =>
    rw [name_of_contractOf? hc, Option.map_some]
    split
    · rw [Contract.nameCreation]
      dsimp only
      split
      · split <;> rfl
      · rfl
    · rw [Contract.nameCall]
      dsimp only
      split
      · rfl
      · split <;> rfl

/-- A frame that calls a function has its name, and tries to decode its input and, if it succeeded, its
    output. -/
theorem name_of_callsFunction (h : r.CallsFunction f function) (id : Nat) :
    r.name id f =
      let input := attempt (Abi.decodeArguments function.inputs (f.input.drop 4)) (.undecodedInput id)
      let output :=
        if f.status = .success then
          attempt (Abi.decodeArguments function.outputs f.output) (.undecodedOutput id)
        else (none, [])
      (⟨(r.contractOf? f).map (·.name), function.name, input.1, output.1⟩, input.2 ++ output.2) := by
  obtain ⟨hcreate, c, selector, hc, hselector, hfunction⟩ := h
  have hnonempty : ¬ f.input.isEmpty := by
    intro hempty
    rw [List.isEmpty_iff.1 hempty] at hselector
    cases hselector
  have hfound : f.selector?.bind c.abi.functionBySelector = some function := by
    rw [Frame.selector?, if_neg (by simp [hcreate]), hselector, Option.bind_some, hfunction]
  rw [name_of_contractOf? hc, if_neg (by simp [hcreate]), Contract.nameCall, if_neg hnonempty, hfound, hc]
  rfl

/-- A frame that creates a contract tries to decode what follows the code. -/
theorem name_of_runsConstructor (h : r.RunsConstructor f constructor data) (id : Nat) :
    r.name id f =
      let input := attempt (Abi.decodeArguments constructor.inputs data) (.undecodedInput id)
      (⟨(r.contractOf? f).map (·.name), "constructor", input.1, none⟩, input.2) := by
  obtain ⟨hcreate, c, code, hc, hconstructor, hcode, hinput⟩ := h
  have hprefix : code.isPrefixOf f.input := by
    rw [List.isPrefixOf_iff_prefix, hinput]
    exact List.prefix_append code data
  have hdata : f.input.drop code.length = data := by rw [hinput, List.drop_left]
  rw [name_of_contractOf? hc, if_pos hcreate, Contract.nameCreation, hconstructor, hcode]
  dsimp only
  rw [if_pos hprefix, hdata, hc]
  rfl

/-- Of a frame that does neither no data is decoded. -/
theorem name_of_forall_not (hcalls : ∀ function, ¬ r.CallsFunction f function)
    (hruns : ∀ constructor data, ¬ r.RunsConstructor f constructor data) (id : Nat) :
    (r.name id f).1.arguments = none ∧ (r.name id f).1.results = none ∧ (r.name id f).2 = [] := by
  cases hc : r.contractOf? f with
  | none =>
    rw [name, hc]
    exact ⟨rfl, rfl, rfl⟩
  | some c =>
    rw [name_of_contractOf? hc]
    split
    · next hcreate =>
      rw [Contract.nameCreation]
      dsimp only
      split
      · next constructor code hconstructor hcode =>
        split
        · next hprefix =>
          obtain ⟨data, hdata⟩ := List.isPrefixOf_iff_prefix.1 hprefix
          exact absurd ⟨hcreate, c, code, hc, hconstructor, hcode, hdata.symm⟩ (hruns constructor data)
        · exact ⟨rfl, rfl, rfl⟩
      · exact ⟨rfl, rfl, rfl⟩
    · next hcreate =>
      rw [Contract.nameCall]
      dsimp only
      split
      · exact ⟨rfl, rfl, rfl⟩
      · split
        · exact ⟨rfl, rfl, rfl⟩
        · next function hfound =>
          rw [Frame.selector?, if_neg hcreate] at hfound
          obtain ⟨selector, hselector, hfunction⟩ := Option.bind_eq_some_iff.1 hfound
          exact absurd ⟨by simpa using hcreate, c, selector, hc, hselector, hfunction⟩ (hcalls function)

theorem accounted_input_of_callsFunction (h : r.CallsFunction f function) (id : Nat) :
    Accounted (Abi.decodeArguments function.inputs (f.input.drop 4)) (r.name id f).1.arguments
      ((r.name id f).2.filterMap (·.inputCause? id)) := by
  have houtput : (if f.status = .success then
      attempt (Abi.decodeArguments function.outputs f.output) (.undecodedOutput id)
      else (none, [])).2.filterMap (·.inputCause? id) = [] := by
    split
    · exact filterMap_attempt_eq_nil _ fun _ => rfl
    · rfl
  rw [name_of_callsFunction h, List.filterMap_append, houtput, List.append_nil]
  exact accounted_attempt _ fun _ => if_pos rfl

theorem accounted_input_of_runsConstructor (h : r.RunsConstructor f constructor data) (id : Nat) :
    Accounted (Abi.decodeArguments constructor.inputs data) (r.name id f).1.arguments
      ((r.name id f).2.filterMap (·.inputCause? id)) := by
  rw [name_of_runsConstructor h]
  exact accounted_attempt _ fun _ => if_pos rfl

theorem output_of_callsFunction (h : r.CallsFunction f function) (id : Nat) :
    let output :=
      if f.status = .success then
        attempt (Abi.decodeArguments function.outputs f.output) (.undecodedOutput id)
      else (none, [])
    (r.name id f).1.results = output.1 ∧
      (r.name id f).2.filterMap (·.outputCause? id) = output.2.filterMap (·.outputCause? id) := by
  have hinput : (attempt (Abi.decodeArguments function.inputs (f.input.drop 4))
      (.undecodedInput id)).2.filterMap (·.outputCause? id) = [] :=
    filterMap_attempt_eq_nil _ fun _ => rfl
  rw [name_of_callsFunction h, List.filterMap_append, hinput, List.nil_append]
  exact ⟨rfl, rfl⟩

theorem accounted_output (h : r.CallsFunction f function) (hstatus : f.status = .success) (id : Nat) :
    Accounted (Abi.decodeArguments function.outputs f.output) (r.name id f).1.results
      ((r.name id f).2.filterMap (·.outputCause? id)) := by
  obtain ⟨hresults, hcauses⟩ := output_of_callsFunction h id
  rw [hresults, hcauses, if_pos hstatus]
  exact accounted_attempt _ fun _ => if_pos rfl

/-- Output is only decoded of a function that succeeded. -/
theorem output_of_forall_not (h : ∀ function, ¬ (r.CallsFunction f function ∧ f.status = .success))
    (id : Nat) :
    (r.name id f).1.results = none ∧ (r.name id f).2.filterMap (·.outputCause? id) = [] := by
  by_cases hcalls : ∃ function, r.CallsFunction f function
  · obtain ⟨function, hcalls⟩ := hcalls
    have hstatus : f.status ≠ .success := fun hstatus => h function ⟨hcalls, hstatus⟩
    obtain ⟨hresults, hcauses⟩ := output_of_callsFunction hcalls id
    rw [hresults, hcauses, if_neg hstatus]
    exact ⟨rfl, rfl⟩
  by_cases hruns : ∃ constructor data, r.RunsConstructor f constructor data
  · obtain ⟨constructor, data, hruns⟩ := hruns
    rw [name_of_runsConstructor hruns]
    exact ⟨rfl, filterMap_attempt_eq_nil _ fun _ => rfl⟩
  · simp only [not_exists] at hcalls hruns
    obtain ⟨-, hresults, hnone⟩ := name_of_forall_not hcalls hruns id
    rw [hnone]
    exact ⟨hresults, rfl⟩

end Registry

/-! ### Reports of all frames -/

/-- Of lists that are made of the members of a list, all but one of them empty, that one is left. -/
theorem flatMap_mapIdx_of_getElem? {α β γ : Type} {l : List α} {g : Nat → α → β} {h : β → List γ}
    {i : Nat} {a : α} (hl : l[i]? = some a) (hother : ∀ j ≠ i, ∀ b, h (g j b) = []) :
    (l.mapIdx g).flatMap h = h (g i a) := by
  induction l generalizing i g with
  | nil => cases hl
  | cons b l ih =>
    rw [List.mapIdx_cons, List.flatMap_cons]
    cases i with
    | zero =>
      obtain rfl : b = a := by simpa using hl
      have hrest : (l.mapIdx fun j => g (j + 1)).flatMap h = [] := by
        rw [List.flatMap_eq_nil_iff]
        intro x hx
        obtain ⟨j, hj, rfl⟩ := List.mem_mapIdx.1 hx
        exact hother (j + 1) (Nat.succ_ne_zero j) _
      rw [hrest, List.append_nil]
    | succ i =>
      rw [hother 0 (Nat.succ_ne_zero i).symm, List.nil_append]
      exact ih (by simpa using hl) fun j hne b => hother (j + 1) (by omega) b

namespace CallTree

variable {id : Nat} {cause? : Anomaly → Option Abi.DecodeError}

/-- What is reported of the data of a frame is reported while the frame is named. -/
theorem filterMap_anomalies (tx : Transaction) (trace : Trace) (r : Registry) {f : Frame}
    (hcause : ∀ a, a.undecodedFrame? ≠ some id → cause? a = none)
    (hf : (ofTrace tx trace).1.frame? id = some f) :
    (anomalies tx trace r).filterMap cause? = (r.name id f).2.filterMap cause? := by
  have hbuilt : (ofTrace tx trace).2.toList.filterMap cause? = [] := by
    rw [List.filterMap_eq_nil_iff]
    intro a ha
    refine hcause a fun hframe => ?_
    exact not_isUndecoded_of_mem (Array.mem_toList_iff.1 ha) (Anomaly.isUndecoded_of_undecodedFrame? hframe)
  have hf' : (ofTrace tx trace).1.frames.toList[id]? = some f := by
    rw [Array.getElem?_toList]
    exact hf
  rw [anomalies, List.filterMap_append, hbuilt, List.nil_append, named]
  dsimp only
  rw [Array.toList_mapIdx, List.filterMap_flatMap]
  refine flatMap_mapIdx_of_getElem? (h := fun name : Naming × List Anomaly => name.2.filterMap cause?) hf'
    fun id' hne g => ?_
  rw [List.filterMap_eq_nil_iff]
  intro a ha
  apply hcause
  rw [Registry.undecodedFrame?_of_mem_name ha]
  exact fun heq => hne (Option.some.inj heq)

/-- An analysis reports of the data of frames what is reported of its tree. -/
theorem filterMap_anomalies_ofTransaction (tx : Transaction) {json : Json} {trace : Trace} (r : Registry)
    (hjson : Trace.ofJson json = .ok trace)
    (hcause : ∀ a, a.undecodedFrame? ≠ some id → cause? a = none) :
    (Analysis.ofTransaction tx (.available json) r).anomalies.filterMap cause? =
      (anomalies tx trace r).filterMap cause? := by
  have hdropped : (trace.dropped.map fun p => Anomaly.malformedStep p.1 p.2).filterMap cause? = [] := by
    rw [List.filterMap_eq_nil_iff]
    intro a ha
    obtain ⟨_, _, rfl⟩ := List.mem_map.1 ha
    exact hcause _ (by simp [Anomaly.undecodedFrame?])
  have hevents : ((r.treeEvents ((ofTrace tx trace).1.named r).1).flatMap (·.2)).filterMap cause? = [] := by
    rw [List.filterMap_eq_nil_iff]
    intro a ha
    obtain ⟨e, he, ha⟩ := List.mem_flatMap.1 ha
    obtain ⟨p, _, rfl⟩ := List.mem_map.1 he
    refine hcause a fun hframe => ?_
    exact Registry.not_isUndecoded_of_mem_event ha (Anomaly.isUndecoded_of_undecodedFrame? hframe)
  simp only [Analysis.ofTransaction, Analysis.execute, hjson]
  rw [List.filterMap_append, hevents, List.append_nil, List.append_assoc, List.filterMap_append]
  exact congrArg (· ++ _) hdropped

/-- A frame has the name of the contract whose code it runs, and what becomes of its data is known: the input
    of a frame that calls a function or runs a constructor is shown or reported, and no other; so is the
    output of a frame that calls a function and succeeded. -/
theorem accounted_named_ofTrace (tx : Transaction) (trace : Trace) (r : Registry) {id : Nat} {f : Frame}
    (hf : ((ofTrace tx trace).1.named r).1.frame? id = some f) :
    let inputCauses := (anomalies tx trace r).filterMap (·.inputCause? id)
    let outputCauses := (anomalies tx trace r).filterMap (·.outputCause? id)
    f.naming.contract = (r.contractOf? f).map (·.name) ∧
      (∀ function, r.CallsFunction f function →
        f.naming.function = function.name ∧
        Accounted (Abi.decodeArguments function.inputs (f.input.drop 4)) f.naming.arguments inputCauses ∧
        (f.status = .success →
          Accounted (Abi.decodeArguments function.outputs f.output) f.naming.results outputCauses)) ∧
      (∀ constructor data, r.RunsConstructor f constructor data →
        Accounted (Abi.decodeArguments constructor.inputs data) f.naming.arguments inputCauses) ∧
      ((∀ function, ¬ r.CallsFunction f function) →
        (∀ constructor data, ¬ r.RunsConstructor f constructor data) →
        f.naming.arguments = none ∧ inputCauses = []) ∧
      ((∀ function, ¬ (r.CallsFunction f function ∧ f.status = .success)) →
        f.naming.results = none ∧ outputCauses = []) ∧
      ∀ json, Trace.ofJson json = .ok trace →
        let analysis := Analysis.ofTransaction tx (.available json) r
        analysis.tree? = some ((ofTrace tx trace).1.named r).1 ∧
          analysis.anomalies.filterMap (·.inputCause? id) = inputCauses ∧
          analysis.anomalies.filterMap (·.outputCause? id) = outputCauses := by
  intro inputCauses outputCauses
  rw [frames_named] at hf
  obtain ⟨g, hg, rfl⟩ := Option.map_eq_some_iff.1 hf
  have hinput : inputCauses = (r.name id g).2.filterMap (·.inputCause? id) :=
    filterMap_anomalies tx trace r (Anomaly.inputCause?_eq_none id) hg
  have houtput : outputCauses = (r.name id g).2.filterMap (·.outputCause? id) :=
    filterMap_anomalies tx trace r (Anomaly.outputCause?_eq_none id) hg
  rw [hinput, houtput]
  refine ⟨r.contract_name id g, fun function hcalls => ⟨?_, ?_, fun hstatus => ?_⟩,
    fun constructor data hruns => ?_, fun hcalls hruns => ?_, fun hsucceeded => ?_, fun json hjson => ?_⟩
  · exact congrArg (·.1.function) (Registry.name_of_callsFunction (f := g) hcalls id)
  · exact Registry.accounted_input_of_callsFunction (f := g) hcalls id
  · exact Registry.accounted_output (f := g) hcalls hstatus id
  · exact Registry.accounted_input_of_runsConstructor (f := g) hruns id
  · obtain ⟨harguments, -, hnone⟩ := Registry.name_of_forall_not (f := g) hcalls hruns id
    rw [hnone]
    exact ⟨harguments, rfl⟩
  · exact Registry.output_of_forall_not (f := g) hsucceeded id
  · rw [← hinput, ← houtput]
    exact ⟨(tree?_of_ofJson tx r hjson).1,
      filterMap_anomalies_ofTransaction tx r hjson (Anomaly.inputCause?_eq_none id),
      filterMap_anomalies_ofTransaction tx r hjson (Anomaly.outputCause?_eq_none id)⟩

/-- A transfer that is declared to say whether it was made. -/
def flaggedEntry : Abi.Entry := { transferEntry with outputs := [⟨"made", .bool, false⟩] }

def flaggedContract : Contract where
  name := "Token"
  abi := { Abi.Interface.empty with functions := [flaggedEntry] }

def flaggedRegistry : Registry := Registry.empty.insert 0xcc flaggedContract

/-- The tree of a transfer. The token stops, and returns nothing. -/
def flaggedTree : CallTree := ((ofTrace callOfContract transferTrace).1.named flaggedRegistry).1

theorem accounted_named_ofTrace_flagged :
    ∃ f, flaggedTree.frame? 1 = some f ∧ f.naming.contract = some "Token" ∧
      f.naming.function = "transfer" ∧
      f.naming.arguments =
        some [⟨"to", .address, .address 0xaa⟩, ⟨"value", .uint .word, .uint 0x500 256⟩] ∧
      f.naming.results = none ∧
      (Analysis.ofTransaction callOfContract (.available transferJson)
        flaggedRegistry).anomalies.filterMap (·.inputCause? 1) = [] ∧
      (Analysis.ofTransaction callOfContract (.available transferJson)
        flaggedRegistry).anomalies.filterMap (·.outputCause? 1) = [.insufficientData 0 32 0] := by
  have hframe : (flaggedTree.frame? 1).map
      (fun f => (f.callType, f.callee, f.input, f.output, f.status)) =
      some (.call, some 0xcc, flaggedEntry.selector.toBytes ++ transferBytes, [], .success) := by
    decide +kernel
  obtain ⟨f, hf, heq⟩ := Option.map_eq_some_iff.1 hframe
  simp only [Prod.mk.injEq] at heq
  obtain ⟨htype, hcallee, hdata, houtput, hstatus⟩ := heq
  have hcontract : flaggedRegistry.contractOf? f = some flaggedContract := by
    rw [Registry.contractOf?, hcallee, Option.bind_some, flaggedRegistry, Registry.find?_insert,
      if_pos rfl, Option.some_or]
  have hcalls : flaggedRegistry.CallsFunction f flaggedEntry := by
    refine ⟨by rw [htype]; rfl, flaggedContract, flaggedEntry.selector, hcontract, ?_, rfl⟩
    rw [hdata, Selector.ofPayload?_append]
  obtain ⟨hname, hcalled, -, -, -, hanalysis⟩ :=
    accounted_named_ofTrace callOfContract transferTrace flaggedRegistry hf
  obtain ⟨-, hinputs, houtputs⟩ := hanalysis transferJson (Analysis.ofJson_traceIn _)
  obtain ⟨hfunction, hinput, hresults⟩ := hcalled flaggedEntry hcalls
  rw [hinputs, houtputs]
  rw [hcontract] at hname
  rw [hdata] at hinput
  have hencode : Abi.encode (flaggedEntry.inputs.map (·.type)) transferValues = .ok transferBytes :=
    eq_ok_of_toOption (by decide +kernel)
  have hdecoded : Abi.decodeArguments flaggedEntry.inputs
      ((flaggedEntry.selector.toBytes ++ transferBytes).drop 4) =
      .ok [⟨"to", .address, .address 0xaa⟩, ⟨"value", .uint .word, .uint 0x500 256⟩] := by
    rw [List.drop_left' (Selector.length_toBytes _)]
    exact Abi.decodeArguments_of_encode (by decide +kernel) (by decide +kernel) hencode
  have hundecoded : Abi.decodeArguments flaggedEntry.outputs [] = .error (.insufficientData 0 32 0) := rfl
  have hshown := hresults hstatus
  rw [houtput, hundecoded, accounted_error_iff] at hshown
  rw [hdecoded, accounted_ok_iff] at hinput
  exact ⟨f, hf, hname, hfunction, hinput.1, hshown.1, hinput.2, hshown.2⟩

end CallTree

end TxTrace

import TxTrace.Proofs.Abi.Arguments
import TxTrace.Proofs.Analysis.Events
import TxTrace.Proofs.CallTree.Called
import TxTrace.Word.Lemmas

/-!
Calls of known functions (`CallTree.arguments_named_ofTrace`). The arguments that a caller encodes are
those that the frame of the call shows: they come back through the operands of the call, the memory of
the caller, the address and the selector, whatever surrounds the call.
-/

namespace TxTrace

/-! ### Operands -/

/-- The operands of a call stand in fixed places, those below a value one further down. -/
theorem Operands.ofStack?_of_getElem? {type : CallType} {stack : List Word} {target offset length : Word}
    (hcreate : type.isCreate = false) (htarget : stack[1]? = some target)
    (hoffset : stack[if type.hasValue then 3 else 2]? = some offset)
    (hlength : stack[if type.hasValue then 4 else 3]? = some length) :
    ∃ value, ofStack? type stack = some ⟨some target.toAddress, value, offset, length⟩ := by
  cases type with
  | create | create2 => cases hcreate
  | call | callCode =>
    rcases stack with _ | ⟨gas, _ | ⟨target', _ | ⟨value, _ | ⟨offset', _ | ⟨length', rest⟩⟩⟩⟩⟩ <;>
      simp_all [CallType.hasValue, ofStack?]
  | delegateCall | staticCall =>
    rcases stack with _ | ⟨gas, _ | ⟨target', _ | ⟨offset', _ | ⟨length', rest⟩⟩⟩⟩ <;>
      simp_all [CallType.hasValue, ofStack?]

/-- The step calls the address in the low 20 bytes of its second operand, and memory holds `payload` where
    the operands say that the input lies. -/
structure Step.Passes (s : Step) (type : CallType) (a : Address) (payload : Bytes) : Prop where
  kind : s.kind = .call type
  not_create : type.isCreate = false
  target : (s.stackTop 1).map Word.toAddress = some a
  input : ∃ offset length, s.stackTop (if type.hasValue then 3 else 2) = some offset ∧
    s.stackTop (if type.hasValue then 4 else 3) = some length ∧ length.toNat = payload.length ∧
    offset.toNat + length.toNat ≤ max64 ∧ s.memory.isSome ∧
    s.memorySlice offset.toNat length.toNat = payload
  size : payload.length ≤ maxMemoryRead

/-- The frame of the call gets the payload as its input, and the address as its callee. -/
theorem Frame.CalledBy.of_passes {f : Frame} {s : Step} {type : CallType} {a : Address} {payload : Bytes}
    (h : f.CalledBy s) (hpasses : s.Passes type a payload) :
    f.callType.isCreate = false ∧ f.callee = some a ∧ f.input = payload := by
  obtain ⟨offset, length, hoffset, hlength, hsize, hend, hmemory, hslice⟩ := hpasses.input
  obtain ⟨target, htarget, rfl⟩ := Option.map_eq_some_iff.1 hpasses.target
  obtain ⟨value, hoperands⟩ := Operands.ofStack?_of_getElem? hpasses.not_create htarget hoffset hlength
  obtain rfl : type = f.callType := OpKind.call.inj (hpasses.kind.symm.trans h.kind)
  have hread : s.CanRead offset length := .inr ⟨hmemory, hsize ▸ hpasses.size, hend⟩
  refine ⟨hpasses.not_create, ?_, ?_⟩
  · rw [h.callee (by simp [hpasses.not_create]), hoperands, Option.bind_some]
  · rw [h.input, hoperands, Option.bind_some, Step.readMemory_of_canRead hread, hslice,
      Option.getD_some]

/-! ### Names -/

/-- A call of a known function has its name, and the arguments if they decode. -/
theorem Contract.nameCall_of_decodeArguments {c : Contract} {f : Frame} {function : Abi.Entry}
    {arguments : List Abi.Argument} (id : Nat) (hinput : f.input ≠ [])
    (hfunction : f.selector?.bind c.abi.functionBySelector = some function)
    (harguments : Abi.decodeArguments function.inputs (f.input.drop 4) = .ok arguments) :
    (c.nameCall id f).1.contract = some c.name ∧ (c.nameCall id f).1.function = function.name ∧
      (c.nameCall id f).1.arguments = some arguments ∧
      ∀ cause, .undecodedInput id cause ∉ (c.nameCall id f).2 := by
  have hnonempty : ¬ f.input.isEmpty := by simpa [List.isEmpty_iff] using hinput
  unfold nameCall
  rw [if_neg hnonempty, hfunction]
  refine ⟨rfl, rfl, by simp [harguments, attempt], fun cause hmem => ?_⟩
  rcases List.mem_append.1 hmem with hmem | hmem
  · obtain ⟨_, herror, _⟩ := mem_attempt_iff.1 hmem
    rw [harguments] at herror
    cases herror
  · split at hmem
    · obtain ⟨_, _, heq⟩ := mem_attempt_iff.1 hmem
      cases heq
    · cases hmem

/-- A frame whose input is an encoded call of a known function shows the arguments. -/
theorem Registry.name_of_encode {r : Registry} {a : Address} {c : Contract} {function : Abi.Entry}
    {values : List Abi.Value} {b : Bytes} {f : Frame} (id : Nat) (hc : r.find? a = some c)
    (hfunction : c.abi.functionBySelector function.selector = some function)
    (htypes : ∀ ty ∈ function.inputTypes, ty.elementsTakeBytes = true) (hmemory : b.length ≤ max64)
    (hencode : Abi.encode function.inputTypes values = .ok b) (hcreate : f.callType.isCreate = false)
    (hcallee : f.callee = some a) (hinput : f.input = function.selector.toBytes ++ b) :
    (r.name id f).1.contract = some c.name ∧ (r.name id f).1.function = function.name ∧
      (r.name id f).1.arguments = some (List.zipWith (fun p v => ⟨p.name, p.type, v.retype p.type⟩)
        function.inputs values) ∧
      ∀ cause, .undecodedInput id cause ∉ (r.name id f).2 := by
  have hcontract : r.contractOf? f = some c := by
    rw [contractOf?, hcallee, Option.bind_some, hc, Option.some_or]
  have hname : r.name id f = c.nameCall id f := by
    rw [name, hcontract]
    simp only [hcreate]
    rfl
  have hnonempty : f.input ≠ [] := by
    intro hnil
    have hlength := congrArg List.length (hinput.symm.trans hnil)
    simp at hlength
  have hselector : f.selector? = some function.selector := by
    rw [Frame.selector?, if_neg (by simp [hcreate]), hinput, Selector.ofPayload?_append]
  have harguments : Abi.decodeArguments function.inputs (f.input.drop 4) =
      .ok (List.zipWith (fun p v => ⟨p.name, p.type, v.retype p.type⟩) function.inputs values) := by
    rw [hinput, List.drop_left' (Selector.length_toBytes _)]
    exact Abi.decodeArguments_of_encode htypes hmemory hencode
  rw [hname]
  apply Contract.nameCall_of_decodeArguments id hnonempty ?_ harguments
  rw [hselector, Option.bind_some, hfunction]

/-- Of a log it is only said that it does not decode as an event. -/
theorem Registry.not_isUndecoded_of_mem_event {r : Registry} {code : Address} {log : Log} {a : Anomaly}
    (h : a ∈ (r.event code log).2) : ¬ a.IsUndecoded := by
  unfold event at h
  split at h
  · cases h
  · split at h
    · cases h
    · obtain rfl := List.mem_singleton.1 h
      exact id

/-- The anomaly is about the order of the steps, the operands of one, or the end of the trace. -/
def Anomaly.IsOfSteps : Anomaly → Prop
  | .depthJump .. | .missingOperands .. | .truncatedTrace _ | .trailingSteps .. => True
  | _ => False

theorem Anomaly.IsOfSteps.not_isUndecoded {a : Anomaly} (h : a.IsOfSteps) : ¬ a.IsUndecoded := by
  cases a with
  | depthJump | missingOperands | truncatedTrace | trailingSteps => exact id
  | _ => cases h

namespace CallTree

theorem undecodedInput_mem_named {r : Registry} {tree : CallTree} {id : Nat} {cause : Abi.DecodeError}
    (h : .undecodedInput id cause ∈ (tree.named r).2) :
    ∃ f, tree.frame? id = some f ∧ .undecodedInput id cause ∈ (r.name id f).2 := by
  simp only [named, List.mem_flatMap] at h
  obtain ⟨name, hname, h⟩ := h
  obtain ⟨id', hid⟩ := List.mem_iff_getElem?.1 hname
  rw [Array.getElem?_toList, Array.getElem?_mapIdx] at hid
  obtain ⟨f, hf, rfl⟩ := Option.map_eq_some_iff.1 hid
  obtain rfl := Option.some.inj (Registry.undecodedFrame?_of_mem_name h)
  exact ⟨f, hf, h⟩

/-- Building a tree only reports on the steps and on the end of the trace. -/
theorem isOfSteps_of_mem_ofTrace {tx : Transaction} {trace : Trace} {last : Step} {a : Anomaly}
    (hlast : trace.steps.back? = some last) (h : a ∈ (ofTrace tx trace).2) : a.IsOfSteps := by
  rw [Progress.anomalies_ofTrace, Array.mem_append] at h
  rcases h with h | h
  · rcases Progress.mem_anomalies_closed hlast h with h | ⟨n, rfl⟩
    · obtain ⟨i, _, hstep⟩ := Progress.ofStep_of_mem_reached (Nat.le_refl _) h
      cases a with
      | depthJump | missingOperands => trivial
      | _ => cases hstep
    · trivial
  · cases htrailing : (Progress.closed tx trace).trailing with
    | none => simp [htrailing] at h
    | some trailing =>
      obtain rfl : a = .trailingSteps trailing.1 trailing.2 := by simpa [htrailing] using h
      trivial

/-- What does not decode is only seen when the frames are named. -/
theorem not_isUndecoded_of_mem_ofTrace {tx : Transaction} {trace : Trace} {last : Step} {a : Anomaly}
    (hlast : trace.steps.back? = some last) (h : a ∈ (ofTrace tx trace).2) : ¬ a.IsUndecoded :=
  (isOfSteps_of_mem_ofTrace hlast h).not_isUndecoded

/-- An analysis shows the tree of its trace, and says of inputs what is said of that tree. -/
theorem tree?_of_ofJson (tx : Transaction) {json : Json} {trace : Trace} (r : Registry)
    (h : Trace.ofJson json = .ok trace) :
    (Analysis.ofTransaction tx (.available json) r).tree? = some ((ofTrace tx trace).1.named r).1 ∧
      ∀ id cause, .undecodedInput id cause ∈ (Analysis.ofTransaction tx (.available json) r).anomalies →
        .undecodedInput id cause ∈ anomalies tx trace r := by
  constructor
  · simp only [Analysis.tree?, Analysis.ofTransaction, Analysis.execute, h]
    rfl
  · intro id cause hmem
    simp only [Analysis.ofTransaction, Analysis.execute, h] at hmem
    rcases List.mem_append.1 hmem with hmem | hmem
    · rw [List.append_assoc] at hmem
      rcases List.mem_append.1 hmem with hmem | hmem
      · obtain ⟨_, _, heq⟩ := List.mem_map.1 hmem
        cases heq
      · exact hmem
    · obtain ⟨e, he, hmem⟩ := List.mem_flatMap.1 hmem
      obtain ⟨p, _, rfl⟩ := List.mem_map.1 he
      exact absurd trivial (Registry.not_isUndecoded_of_mem_event hmem)

/-- The frame of a call shows the arguments that the caller encoded. -/
theorem arguments_named_ofTrace (tx : Transaction) (trace : Trace) (r : Registry) {a : Address}
    {c : Contract} {function : Abi.Entry} {values : List Abi.Value} {b : Bytes} {i : Nat} {s : Step}
    {type : CallType} (hc : r.find? a = some c)
    (hfunction : c.abi.functionBySelector function.selector = some function)
    (htypes : ∀ ty ∈ function.inputTypes, ty.elementsTakeBytes = true)
    (hencode : Abi.encode function.inputTypes values = .ok b) (hs : trace.steps[i]? = some s)
    (hpasses : s.Passes type a (function.selector.toBytes ++ b)) :
    let tree := ((ofTrace tx trace).1.named r).1
    ((Progress.reached tx trace.steps i).opened ≠ [] → s.error = none →
        (∀ next, trace.steps[i + 1]? = some next → s.depth ≤ next.depth) →
        ∃ id f, tree.frame? id = some f ∧ f.callStep = some i) ∧
      (∀ id f, tree.frame? id = some f → f.callStep = some i →
        f.naming.contract = some c.name ∧ f.naming.function = function.name ∧
        f.naming.arguments = some (List.zipWith (fun p v => ⟨p.name, p.type, v.retype p.type⟩)
          function.inputs values) ∧
        ∀ cause, .undecodedInput id cause ∉ anomalies tx trace r) ∧
      ∀ json, Trace.ofJson json = .ok trace →
        (Analysis.ofTransaction tx (.available json) r).tree? = some tree ∧
        ∀ id cause, .undecodedInput id cause ∈ (Analysis.ofTransaction tx (.available json) r).anomalies →
          .undecodedInput id cause ∈ anomalies tx trace r := by
  intro tree
  refine ⟨fun hopened herror hnext =>
    exists_frame?_of_call tx trace r hs hpasses.kind hopened herror hnext, fun id f hf hcall => ?_,
    fun json hjson => tree?_of_ofJson tx r hjson⟩
  obtain ⟨s', hs', hcalled⟩ := calledAt_named_ofTrace tx trace r hf i hcall
  obtain rfl := Option.some.inj (hs'.symm.trans hs)
  obtain ⟨hcreate, hcallee, hinput⟩ := hcalled.of_passes hpasses
  have hmemory : b.length ≤ max64 := by
    have hsize := hpasses.size
    rw [List.length_append, Selector.length_toBytes] at hsize
    exact Nat.le_trans (Nat.le_of_add_left_le hsize) (by decide)
  rw [frames_named] at hf
  obtain ⟨g, hg, rfl⟩ := Option.map_eq_some_iff.1 hf
  obtain ⟨hcontract, hname, harguments, hundecoded⟩ :=
    r.name_of_encode id hc hfunction htypes hmemory hencode hcreate hcallee hinput
  refine ⟨hcontract, hname, harguments, fun cause hmem => ?_⟩
  rcases List.mem_append.1 hmem with hmem | hmem
  · obtain ⟨last, hlast⟩ := Progress.exists_back?_eq_some (Array.getElem?_eq_some_iff.1 hs).1
    exact not_isUndecoded_of_mem_ofTrace hlast (Array.mem_toList_iff.1 hmem) trivial
  · obtain ⟨g', hg', hmem⟩ := undecodedInput_mem_named hmem
    obtain rfl := Option.some.inj (hg'.symm.trans hg)
    exact hundecoded cause hmem

/-- A function of a token, as others call it. -/
def transferEntry : Abi.Entry where
  kind := .function
  name := "transfer"
  inputs := [⟨"to", .address, false⟩, ⟨"value", .uint .word, false⟩]
  outputs := []
  anonymous := false
  signature := "transfer(address,uint256)"
  selector := 0xa9059cbb
  topic := 0

def tokenContract : Contract where
  name := "Token"
  abi := { Abi.Interface.empty with functions := [transferEntry] }

def transferRegistry : Registry := Registry.empty.insert 0xcc tokenContract

def transferValues : List Abi.Value := [.address 0xaa, .uint 0x500 16]

/-- The address `0xaa` and the number `0x500`, each in a word. -/
def transferBytes : Bytes :=
  List.replicate 31 0 ++ [0xaa] ++ (List.replicate 30 0 ++ [5, 0])

/-- The payload of a call stands in memory behind two other bytes, its last byte not written yet. -/
def transferMemory : Bytes := [1, 2] ++ (transferEntry.selector.toBytes ++ transferBytes).dropLast

/-- A contract calls the token at `0xcc`. -/
def transferJson : Json :=
  .arr [Analysis.stepRecord "CALL" 1 ["0x0", "0x0", "0x44", "0x2", "0x0", "0xcc", "0x64"] transferMemory,
    Analysis.stepRecord "STOP" 2 [] [], Analysis.stepRecord "STOP" 1 ["0x1"] []]

def transferTrace : Trace := Analysis.traceIn transferJson (by decide +kernel)

def transferStep : Step :=
  ⟨0, "CALL", 1, 100, 1, [100, 0xcc, 0, 2, 68, 0, 0], some transferMemory, none, none, none⟩

theorem steps_transferTrace : transferTrace.steps =
    #[transferStep, ⟨0, "STOP", 2, 100, 1, [], some [], none, none, none⟩,
      ⟨0, "STOP", 1, 100, 1, [1], some [], none, none, none⟩] := by
  decide +kernel

theorem passes_transferStep :
    transferStep.Passes .call 0xcc (transferEntry.selector.toBytes ++ transferBytes) where
  kind := by decide +kernel
  not_create := rfl
  target := rfl
  input := ⟨2, 68, by decide +kernel⟩
  size := by decide +kernel

/-- The tree of a call of the contract `0xbb` that calls the token. -/
def transferTree : CallTree :=
  ((ofTrace callOfContract transferTrace).1.named transferRegistry).1

theorem arguments_named_ofTrace_transfer :
    ∃ id f, transferTree.frame? id = some f ∧ f.callStep = some 0 ∧
      f.naming.contract = some "Token" ∧ f.naming.function = "transfer" ∧
      f.naming.arguments =
        some [⟨"to", .address, .address 0xaa⟩, ⟨"value", .uint .word, .uint 0x500 256⟩] ∧
      ∀ cause, .undecodedInput id cause ∉
        (Analysis.ofTransaction callOfContract (.available transferJson) transferRegistry).anomalies := by
  have hcontract : transferRegistry.find? 0xcc = some tokenContract := by
    rw [transferRegistry, Registry.find?_insert, if_pos rfl]
  have hfunction : tokenContract.abi.functionBySelector transferEntry.selector = some transferEntry :=
    rfl
  have htypes : ∀ ty ∈ transferEntry.inputTypes, ty.elementsTakeBytes = true := by decide +kernel
  have hencode : Abi.encode transferEntry.inputTypes transferValues = .ok transferBytes :=
    eq_ok_of_toOption (by decide +kernel)
  have hstep : transferTrace.steps[0]? = some transferStep := by rw [steps_transferTrace]; rfl
  have hopened : (Progress.reached callOfContract transferTrace.steps 0).opened ≠ [] :=
    List.cons_ne_nil _ _
  have hnext : ∀ next, transferTrace.steps[0 + 1]? = some next → transferStep.depth ≤ next.depth := by
    rw [steps_transferTrace]
    decide
  obtain ⟨hexists, hshown, hanalysis⟩ := arguments_named_ofTrace callOfContract transferTrace
    transferRegistry hcontract hfunction htypes hencode hstep passes_transferStep
  obtain ⟨id, f, hf, hcall⟩ := hexists hopened rfl hnext
  obtain ⟨hname, hcalled, harguments, hundecoded⟩ := hshown id f hf hcall
  refine ⟨id, f, hf, hcall, hname, hcalled, harguments, fun cause hmem => ?_⟩
  exact hundecoded cause ((hanalysis transferJson (Analysis.ofJson_traceIn _)).2 id cause hmem)

end CallTree

end TxTrace

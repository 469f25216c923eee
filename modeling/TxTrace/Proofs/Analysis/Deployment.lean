import TxTrace.Proofs.Analysis.Arguments
import TxTrace.Proofs.Registry.Lookup

/-!
Deployments of known contracts (`CallTree.constructor_named_ofTrace`). A frame that creates a contract at
an address that is not known is named for the first contract whose creation code its input begins with,
and shows as arguments what follows that code.
-/

namespace TxTrace

namespace Contract

variable {c : Contract} {code : Bytes}

theorem created_iff {input : Bytes} (hcode : c.creationCode = some code) :
    c.created input ↔ code ≠ [] ∧ code <+: input := by
  simp [created, hcode]

/-- What follows the creation code is shown as the arguments of the constructor if it decodes. -/
theorem nameCreation_of_decodeArguments {f : Frame} {constructor : Abi.Entry} {b : Bytes}
    {arguments : List Abi.Argument} (id : Nat) (hconstructor : c.abi.constructor = some constructor)
    (hcode : c.creationCode = some code) (hinput : f.input = code ++ b)
    (harguments : Abi.decodeArguments constructor.inputs b = .ok arguments) :
    c.nameCreation id f =
      ({ contract := some c.name, function := "constructor", arguments := some arguments }, []) := by
  have hprefix : code.isPrefixOf f.input := by
    rw [List.isPrefixOf_iff_prefix, hinput]
    exact List.prefix_append code b
  simp only [nameCreation, hconstructor, hcode, if_pos hprefix]
  rw [hinput, List.drop_left, harguments]
  rfl

end Contract

namespace Registry

variable {r : Registry} {f : Frame}

/-- A creation at an address that is not known runs the code of the first contract that it creates. -/
theorem contractOf?_of_isCreate (hcreate : f.callType.isCreate = true)
    (hcallee : f.callee.bind r.find? = none) : r.contractOf? f = r.findCreated? f.input := by
  rw [contractOf?, hcallee, Option.none_or, if_pos hcreate]

/-- A frame whose input is creation code and encoded arguments shows the arguments. -/
theorem name_of_creation {a : Address} {c : Contract} {constructor : Abi.Entry}
    {values : List Abi.Value} {code b : Bytes} (id : Nat) (hc : r.find? a = some c)
    (hconstructor : c.abi.constructor = some constructor) (hcode : c.creationCode = some code)
    (hnonempty : code ≠ [])
    (hfirst : ∀ a' < a, ∀ c', r.find? a' = some c' → ¬ c'.created (code ++ b))
    (htypes : ∀ ty ∈ constructor.inputTypes, ty.elementsTakeBytes = true) (hmemory : b.length ≤ max64)
    (hencode : Abi.encode constructor.inputTypes values = .ok b) (hcreate : f.callType.isCreate = true)
    (hcallee : f.callee.bind r.find? = none) (hinput : f.input = code ++ b) :
    r.name id f =
      ({ contract := some c.name
         function := "constructor"
         arguments := some (List.zipWith (fun p v => ⟨p.name, p.type, v.retype p.type⟩)
           constructor.inputs values) }, []) := by
  have hcreated : c.created (code ++ b) :=
    (Contract.created_iff hcode).2 ⟨hnonempty, List.prefix_append code b⟩
  have hcontract : r.contractOf? f = some c := by
    rw [contractOf?_of_isCreate hcreate hcallee, hinput]
    exact findCreated?_eq_some_iff.2 ⟨a, hc, hcreated, hfirst⟩
  have hname : r.name id f = c.nameCreation id f := by
    rw [name, hcontract]
    exact if_pos hcreate
  rw [hname]
  exact Contract.nameCreation_of_decodeArguments id hconstructor hcode hinput
    (Abi.decodeArguments_of_encode htypes hmemory hencode)

end Registry

namespace CallTree

theorem snd_ofTrace_of_steps_eq_empty (tx : Transaction) {trace : Trace} (hempty : trace.steps = #[]) :
    (ofTrace tx trace).2 = #[] := by
  cases trace
  subst hempty
  rfl

/-- Building a tree only reports on the steps and on the end of the trace. A trace without steps gives
    nothing to report. -/
theorem isOfSteps_of_mem {tx : Transaction} {trace : Trace} {anomaly : Anomaly}
    (h : anomaly ∈ (ofTrace tx trace).2) : anomaly.IsOfSteps := by
  rcases Nat.eq_zero_or_pos trace.steps.size with hempty | hpos
  · rw [snd_ofTrace_of_steps_eq_empty tx (Array.eq_empty_of_size_eq_zero hempty)] at h
    exact absurd h (Array.not_mem_empty _)
  · obtain ⟨last, hlast⟩ := Progress.exists_back?_eq_some hpos
    exact isOfSteps_of_mem_ofTrace hlast h

/-- That data does not decode is not seen while the tree is built. -/
theorem not_isUndecoded_of_mem {tx : Transaction} {trace : Trace} {anomaly : Anomaly}
    (h : anomaly ∈ (ofTrace tx trace).2) : ¬ anomaly.IsUndecoded :=
  (isOfSteps_of_mem h).not_isUndecoded

/-- That data does not decode is only seen when the frames are named. -/
theorem mem_named_of_mem_anomalies {tx : Transaction} {trace : Trace} {r : Registry} {anomaly : Anomaly}
    (hundecoded : anomaly.IsUndecoded) (h : anomaly ∈ anomalies tx trace r) :
    anomaly ∈ ((ofTrace tx trace).1.named r).2 := by
  rcases List.mem_append.1 h with h | h
  · exact absurd hundecoded (not_isUndecoded_of_mem (Array.mem_toList_iff.1 h))
  · exact h

/-- A frame that creates a contract at an address that is not known, from the code of a known contract
    and the arguments that its constructor encodes, shows that contract and the arguments, if it is the
    first by address whose code the input begins with. -/
theorem constructor_named_ofTrace (tx : Transaction) (trace : Trace) (r : Registry) {a : Address}
    {c : Contract} {constructor : Abi.Entry} {values : List Abi.Value} {code b : Bytes}
    (hc : r.find? a = some c) (hconstructor : c.abi.constructor = some constructor)
    (hcode : c.creationCode = some code) (hnonempty : code ≠ [])
    (hfirst : ∀ a' < a, ∀ c' code', r.find? a' = some c' → c'.creationCode = some code' →
      code' ≠ [] → ¬ code' <+: code ++ b)
    (htypes : ∀ ty ∈ constructor.inputTypes, ty.elementsTakeBytes = true) (hmemory : b.length ≤ max64)
    (hencode : Abi.encode constructor.inputTypes values = .ok b) :
    let tree := ((ofTrace tx trace).1.named r).1
    (∀ id f, tree.frame? id = some f → f.callType.isCreate = true → f.callee.bind r.find? = none →
        f.input = code ++ b →
        f.naming.contract = some c.name ∧ f.naming.function = "constructor" ∧
        f.naming.arguments = some (List.zipWith (fun p v => ⟨p.name, p.type, v.retype p.type⟩)
          constructor.inputs values) ∧
        ∀ cause, .undecodedInput id cause ∉ anomalies tx trace r) ∧
      ∀ json, Trace.ofJson json = .ok trace →
        (Analysis.ofTransaction tx (.available json) r).tree? = some tree ∧
        ∀ id cause, .undecodedInput id cause ∈ (Analysis.ofTransaction tx (.available json) r).anomalies →
          .undecodedInput id cause ∈ anomalies tx trace r := by
  intro tree
  refine ⟨fun id f hf hcreate hcallee hinput => ?_, fun json hjson => tree?_of_ofJson tx r hjson⟩
  rw [frames_named] at hf
  obtain ⟨g, hg, rfl⟩ := Option.map_eq_some_iff.1 hf
  have hothers : ∀ a' < a, ∀ c', r.find? a' = some c' → ¬ c'.created (code ++ b) := by
    intro a' hlt c' hc' hcreated
    cases hcode' : c'.creationCode with
    | none => simp [Contract.created, hcode'] at hcreated
    | some code' =>
      obtain ⟨hne, hprefix⟩ := (Contract.created_iff hcode').1 hcreated
      exact hfirst a' hlt c' code' hc' hcode' hne hprefix
  have hname := r.name_of_creation (f := g) id hc hconstructor hcode hnonempty hothers htypes hmemory
    hencode hcreate hcallee hinput
  refine ⟨congrArg (·.1.contract) hname, congrArg (·.1.function) hname,
    congrArg (·.1.arguments) hname, fun cause hmem => ?_⟩
  obtain ⟨g', hg', hmem⟩ := undecodedInput_mem_named (mem_named_of_mem_anomalies trivial hmem)
  obtain rfl := Option.some.inj (hg'.symm.trans hg)
  rw [hname] at hmem
  cases hmem

/-- A constructor of numbers with these names. -/
def constructorEntry (names : List String) : Abi.Entry where
  kind := .constructor
  name := ""
  inputs := names.map (⟨·, .uint .word, false⟩)
  outputs := []
  anonymous := false
  signature := ""
  selector := 0
  topic := 0

/-- A contract with this creation code, whose constructor takes numbers. -/
def numberContract (name : String) (creationCode : Bytes) (names : List String) : Contract where
  name
  abi := { Abi.Interface.empty with constructor := some (constructorEntry names) }
  creationCode := some creationCode

/-- The creation code of a vault ends in a word of zeros. -/
def vault : Contract := numberContract "Vault" (0x60 :: Abi.sizeWord 0) ["supply"]

def meter (code : Bytes) : Contract := numberContract "Meter" code ["low", "high"]

/-- A vault, and in front of it a meter with this creation code. -/
def meterAndVault (code : Bytes) : Registry :=
  (Registry.empty.insert 0xbb vault).insert 0xaa (meter code)

/-- The creation of a vault with a supply of 5. -/
def vaultCreation : Transaction where
  hash := none
  sender := 0xee
  receiver := none
  input := 0x60 :: Abi.sizeWord 0 ++ Abi.sizeWord 5
  value := 0
  gasLimit := 0
  gasPrice := 0
  nonce := none
  receipt := none

def vaultJson : Json := .arr [Analysis.stepRecord "STOP" 1 [] []]

def vaultTrace : Trace := Analysis.traceIn vaultJson (by decide +kernel)

/-- The tree of the creation, where the meter has this creation code. -/
def vaultTree (code : Bytes) : CallTree :=
  ((ofTrace vaultCreation vaultTrace).1.named (meterAndVault code)).1

theorem find?_meterAndVault {code : Bytes} {a : Address} {c : Contract} :
    (meterAndVault code).find? a = some c ↔ a = 0xaa ∧ c = meter code ∨ a = 0xbb ∧ c = vault := by
  simp only [meterAndVault, Registry.find?_insert]
  have hempty : Registry.empty.find? a = none := rfl
  rw [hempty]
  constructor
  · intro h
    split at h
    · next ha => exact .inl ⟨ha.symm, (Option.some.inj h).symm⟩
    · split at h
      · next ha => exact .inr ⟨ha.symm, (Option.some.inj h).symm⟩
      · cases h
  · rintro (⟨rfl, rfl⟩ | ⟨rfl, rfl⟩) <;> rfl

theorem encode_vault : Abi.encode (constructorEntry ["supply"]).inputTypes [.uint 5 256] =
    .ok (Abi.sizeWord 5) :=
  eq_ok_of_toOption (by decide +kernel)

theorem encode_meter : Abi.encode (constructorEntry ["low", "high"]).inputTypes
    [.uint 0 256, .uint 5 256] = .ok (Abi.sizeWord 0 ++ Abi.sizeWord 5) :=
  eq_ok_of_toOption (by decide +kernel)

theorem exists_frame?_vaultTree : ∀ code ∈ [[0x60], [0x61]],
    ∃ f, (vaultTree code).frame? 0 = some f ∧ f.callType.isCreate = true ∧ f.callee = none ∧
      f.input = 0x60 :: Abi.sizeWord 0 ++ Abi.sizeWord 5 := by
  intro code hcode
  have hframe : ((vaultTree code).frame? 0).map (fun f => (f.callType.isCreate, f.callee, f.input)) =
      some (true, none, 0x60 :: Abi.sizeWord 0 ++ Abi.sizeWord 5) := by
    revert code
    decide +kernel
  obtain ⟨f, hf, heq⟩ := Option.map_eq_some_iff.1 hframe
  simp only [Prod.mk.injEq] at heq
  exact ⟨f, hf, heq⟩

theorem constructor_named_ofTrace_vaultTree :
    ∃ f, (vaultTree [0x61]).frame? 0 = some f ∧ f.naming.contract = some "Vault" ∧
      f.naming.function = "constructor" ∧
      f.naming.arguments = some [⟨"supply", .uint .word, .uint 5 256⟩] ∧
      ∀ cause, .undecodedInput 0 cause ∉
        (Analysis.ofTransaction vaultCreation (.available vaultJson) (meterAndVault [0x61])).anomalies := by
  have hfirst : ∀ a' < 0xbb, ∀ c' code', (meterAndVault [0x61]).find? a' = some c' →
      c'.creationCode = some code' → code' ≠ [] →
      ¬ code' <+: 0x60 :: Abi.sizeWord 0 ++ Abi.sizeWord 5 := by
    intro a' hlt c' code' hc' hcode' _ hprefix
    rcases find?_meterAndVault.1 hc' with ⟨-, rfl⟩ | ⟨rfl, -⟩
    · obtain rfl := Option.some.inj hcode'
      cases (List.cons_prefix_cons.1 hprefix).1
    · exact absurd hlt (BitVec.lt_irrefl _)
  have htypes : ∀ ty ∈ (constructorEntry ["supply"]).inputTypes, ty.elementsTakeBytes = true := by
    decide +kernel
  obtain ⟨hnamed, hanalysis⟩ := constructor_named_ofTrace vaultCreation vaultTrace (meterAndVault [0x61])
    (find?_meterAndVault.2 (.inr ⟨rfl, rfl⟩)) rfl rfl (List.cons_ne_nil _ _) hfirst htypes
    (by decide +kernel) encode_vault
  obtain ⟨f, hf, hcreate, hcallee, hinput⟩ := exists_frame?_vaultTree [0x61] (by decide)
  obtain ⟨hname, hfunction, harguments, hundecoded⟩ :=
    hnamed 0 f hf hcreate (by rw [hcallee, Option.bind_none]) hinput
  refine ⟨f, hf, hname, hfunction, harguments, fun cause hmem => ?_⟩
  exact hundecoded cause ((hanalysis vaultJson (Analysis.ofJson_traceIn _)).2 0 cause hmem)

/-- One input can be the code and the arguments of two contracts, each with a code of its own. -/
theorem not_forall_constructor_named :
    ¬ ∀ (tx : Transaction) (trace : Trace) (r : Registry) (a : Address) (c : Contract)
        (constructor : Abi.Entry) (values : List Abi.Value) (code b : Bytes),
        r.find? a = some c → c.abi.constructor = some constructor → c.creationCode = some code →
        code ≠ [] → (∀ a' ≠ a, ∀ c', r.find? a' = some c' → c'.creationCode ≠ some code) →
        (∀ ty ∈ constructor.inputTypes, ty.elementsTakeBytes = true) → b.length ≤ max64 →
        Abi.encode constructor.inputTypes values = .ok b →
        ∀ id f, ((ofTrace tx trace).1.named r).1.frame? id = some f → f.callType.isCreate = true →
          f.callee.bind r.find? = none → f.input = code ++ b → f.naming.contract = some c.name := by
  intro h
  obtain ⟨f, hf, hcreate, hcallee, hinput⟩ := exists_frame?_vaultTree [0x60] (by decide)
  have hunknown : f.callee.bind (meterAndVault [0x60]).find? = none := by rw [hcallee, Option.bind_none]
  have hvault := h vaultCreation vaultTrace (meterAndVault [0x60]) 0xbb vault _ [.uint 5 256] _ _
    (find?_meterAndVault.2 (.inr ⟨rfl, rfl⟩)) rfl rfl (List.cons_ne_nil _ _)
    (fun a' hne c' hc' => ?vault) (by decide +kernel) (by decide +kernel) encode_vault 0 f hf hcreate
    hunknown hinput
  have hmeter := h vaultCreation vaultTrace (meterAndVault [0x60]) 0xaa (meter [0x60]) _
    [.uint 0 256, .uint 5 256] _ _ (find?_meterAndVault.2 (.inl ⟨rfl, rfl⟩)) rfl rfl
    (List.cons_ne_nil _ _) (fun a' hne c' hc' => ?meter) (by decide +kernel) (by decide +kernel)
    encode_meter 0 f hf hcreate hunknown hinput
  case vault =>
    rcases find?_meterAndVault.1 hc' with ⟨-, rfl⟩ | ⟨rfl, -⟩
    · nofun
    · exact absurd rfl hne
  case meter =>
    rcases find?_meterAndVault.1 hc' with ⟨rfl, -⟩ | ⟨-, rfl⟩
    · exact absurd rfl hne
    · nofun
  have hname : "Vault" = "Meter" := Option.some.inj (hvault.symm.trans hmeter)
  exact absurd hname (by decide)

end CallTree

end TxTrace

import TxTrace.Proofs.CallTree.Emission
import TxTrace.Proofs.CallTree.Entrance

/-!
Operands of calls and logs. Each operand of a call stands at its own place on the stack
(`Operands.ofStack?_eq_some_iff`). A stack that is too short for what is read of it shows as an anomaly of
its step (`CallTree.missingOperands_mem_anomalies_iff`). The two words that say where the output of a call
goes are not read, so a stack that is short of no more than these shows none.
-/

namespace TxTrace

namespace CallType

/-- How many words the instruction takes off the stack. -/
def pops : CallType → Nat
  | call | callCode => 7
  | delegateCall | staticCall => 6
  | create => 3
  | create2 => 4

/-- How many of these, the last ones, say where the output goes. A creation has no such words. -/
def outputWords (type : CallType) : Nat := if type.isCreate then 0 else 2

/-- Where the address of the callee stands. A creation has none. -/
def targetPlace (type : CallType) : Option Nat := if type.isCreate then none else some 1

/-- Where the value stands, if the instruction has one. -/
def valuePlace (type : CallType) : Option Nat :=
  if type.hasValue then some (if type.isCreate then 0 else 2) else none

/-- Where the offset of the input stands. Its length is the next word. -/
def inputPlace : CallType → Nat
  | call | callCode => 3
  | delegateCall | staticCall => 2
  | create | create2 => 1

end CallType

/-- The operands are the words at their places on the stack. -/
structure Operands.Stand (type : CallType) (stack : List Word) (o : Operands) : Prop where
  target : o.target = (type.targetPlace.bind (stack[·]?)).map Word.toAddress
  value : o.value = (type.valuePlace.bind (stack[·]?)).getD 0
  inputOffset : stack[type.inputPlace]? = some o.inputOffset
  inputLength : stack[type.inputPlace + 1]? = some o.inputLength

namespace Operands

variable {type : CallType} {stack : List Word}

/-- The operands of a call are not known exactly if the stack is short of more than the words for the
    output. -/
theorem ofStack?_eq_none_iff : ofStack? type stack = none ↔ stack.length + type.outputWords < type.pops := by
  cases type with
  | call | callCode =>
    rcases stack with _ | ⟨_, _ | ⟨_, _ | ⟨_, _ | ⟨_, _ | ⟨_, rest⟩⟩⟩⟩⟩ <;>
      simp [ofStack?, CallType.pops, CallType.outputWords, CallType.isCreate]
  | delegateCall | staticCall =>
    rcases stack with _ | ⟨_, _ | ⟨_, _ | ⟨_, _ | ⟨_, rest⟩⟩⟩⟩ <;>
      simp [ofStack?, CallType.pops, CallType.outputWords, CallType.isCreate]
  | create =>
    rcases stack with _ | ⟨_, _ | ⟨_, _ | ⟨_, rest⟩⟩⟩ <;>
      simp [ofStack?, CallType.pops, CallType.outputWords, CallType.isCreate]
  | create2 =>
    rcases stack with _ | ⟨_, _ | ⟨_, _ | ⟨_, _ | ⟨_, rest⟩⟩⟩⟩ <;>
      simp [ofStack?, CallType.pops, CallType.outputWords, CallType.isCreate]

theorem stand_of_ofStack? {o : Operands} (h : ofStack? type stack = some o) : o.Stand type stack := by
  unfold ofStack? at h
  split at h
  case h_7 => cases h
  all_goals
    obtain rfl := Option.some.inj h
    constructor <;> rfl

end Operands

namespace Progress

variable {tx : Transaction} {steps : Array Step} {b : Progress}

/-- The step at `i` was found to have too few words on its stack. -/
def Lacks (i : Nat) (b : Progress) : Prop := ∃ op, .missingOperands i op ∈ b.anomalies

theorem lacks_record {i : Nat} (op : String) : Lacks i (b.record (.missingOperands i op)) :=
  ⟨op, mem_anomalies_record.2 (.inr rfl)⟩

/-- What is read of a stack is not known before the instruction of the step runs. -/
theorem not_lacks_arrive {i : Nat} (hi : i ≤ steps.size) (s : Step) :
    ¬ Lacks i ((reached tx steps i).arrive steps i s) := by
  rintro ⟨op, h⟩
  have halign : .missingOperands i op ∈ ((reached tx steps i).align steps i s.depth).anomalies := by
    rw [← anomalies_settle _ s]
    exact h
  rcases depthJump_of_mem_align halign with h | ⟨source, target, h⟩
  · exact not_mem_anomalies_reached hi (a := .missingOperands i op) rfl h
  · cases h

theorem lacks_checkOperands_iff {i : Nat} (s : Step) (type : CallType) (hnew : ¬ Lacks i b) :
    Lacks i (b.checkOperands i s type) ↔ s.stack.length + type.outputWords < type.pops := by
  unfold checkOperands
  rw [← Operands.ofStack?_eq_none_iff, ← Option.isNone_iff_eq_none]
  split
  · next hnone => exact iff_of_true (lacks_record _) hnone
  · next hsome => exact iff_of_false hnew hsome

theorem lacks_log_iff {i topics : Nat} {s : Step} (hkind : s.kind = .log topics) (hnew : ¬ Lacks i b) :
    Lacks i (b.log i s topics) ↔ s.stack.length < topics + 2 := by
  rw [← Nat.not_le]
  by_cases hstack : topics + 2 ≤ s.stack.length
  · obtain ⟨log, hlog, _⟩ := exists_logOf?_eq_some (i := i) (b.context.getD 0) hkind hstack
    rw [Progress.log, hlog]
    exact iff_of_false hnew (not_not_intro hstack)
  · rw [Progress.log, logOf?_eq_none _ hstack]
    exact iff_of_true (lacks_record _) hstack

theorem Makes.lacks_iff {i id : Nat} {s : Step} {type : CallType} (h : Makes tx steps i s type id) :
    Lacks i (reached tx steps (i + 1)) ↔ s.stack.length + type.outputWords < type.pops := by
  have hle : i ≤ steps.size := Nat.le_of_lt (Array.getElem?_eq_some_iff.1 h.step).1
  have hnew : ¬ Lacks i ((reached tx steps i).arrive steps i s) := not_lacks_arrive hle s
  rw [← lacks_checkOperands_iff s type hnew]
  unfold Lacks
  by_cases hnext : ∃ t, steps[i + 1]? = some t ∧ t.depth = s.depth
  · obtain ⟨t, ht, hdepth⟩ := hnext
    rw [h.reached_eq_add ht hdepth]
    dsimp only
    rw [anomalies_add]
  · rw [h.reached_eq_enter fun t ht hdepth => hnext ⟨t, ht, hdepth⟩]
    dsimp only
    rw [anomalies_enter]

end Progress

namespace CallTree

/-- A call that gets a frame shows that words are missing exactly if the stack is short of more than the
    words for the output, and a log in an open frame exactly if the stack is short of any. -/
theorem missingOperands_mem_anomalies_iff (tx : Transaction) (trace : Trace) (r : Registry) {i : Nat}
    {s : Step} (hs : trace.steps[i]? = some s) :
    (∀ id f, ((ofTrace tx trace).1.named r).1.frame? id = some f → f.callStep = some i →
      ((∃ op, .missingOperands i op ∈ anomalies tx trace r) ↔
        s.stack.length + f.callType.outputWords < f.callType.pops)) ∧
    ∀ topics, s.kind = .log topics → (Progress.reached tx trace.steps i).opened ≠ [] →
      ((∃ op, .missingOperands i op ∈ anomalies tx trace r) ↔ s.stack.length < topics + 2) := by
  have hlt : i < trace.steps.size := (Array.getElem?_eq_some_iff.1 hs).1
  have hlacks : (∃ op, .missingOperands i op ∈ anomalies tx trace r) ↔
      Progress.Lacks i (Progress.reached tx trace.steps (i + 1)) :=
    exists_congr fun op => mem_anomalies_iff_of_ofStep tx r hlt (a := .missingOperands i op) rfl
  rw [hlacks]
  constructor
  · intro id f hf hcall
    obtain ⟨s', hmakes⟩ := makes_named_ofTrace tx trace r hf hcall
    obtain rfl := Option.some.inj (hs.symm.trans hmakes.step)
    exact hmakes.lacks_iff
  · intro topics hkind hopened
    rw [Progress.reached_succ hs, Progress.step_eq_execute hopened, Progress.execute, hkind]
    exact Progress.lacks_log_iff hkind (Progress.not_lacks_arrive (Nat.le_of_lt hlt) s)

/-- A log lacks a topic, and a creation its salt. -/
def shortStacks : Trace where
  steps :=
    #[⟨0, "LOG1", 1, 100, 10, [0, 0], none, none, none, none⟩,
      ⟨1, "CREATE2", 1, 90, 10, [0, 0, 0], none, none, none, none⟩,
      ⟨0, "STOP", 2, 60, 0, [], none, none, none, none⟩]
  dropped := []
  gasUsed := none
  failed := none
  returnValue := none
  depth_le := by simp [maxCallDepth]

theorem missingOperands_mem_anomalies_shortStacks :
    (∃ op, .missingOperands 0 op ∈
      anomalies ⟨none, 0xee, some 0xbb, [], 0, 0, 0, none, none⟩ shortStacks Registry.empty) ∧
    ∃ op, .missingOperands 1 op ∈
      anomalies ⟨none, 0xee, some 0xbb, [], 0, 0, 0, none, none⟩ shortStacks Registry.empty := by
  have hframe : ((((ofTrace ⟨none, 0xee, some 0xbb, [], 0, 0, 0, none, none⟩ shortStacks).1.named
      Registry.empty).1.frame? 1).map fun f => (f.callStep, f.callType)) = some (some 1, .create2) := by
    decide +kernel
  obtain ⟨f, hf, hcall⟩ := Option.map_eq_some_iff.1 hframe
  obtain ⟨hstep, htype⟩ := Prod.mk.inj hcall
  constructor
  · have hlog := (missingOperands_mem_anomalies_iff ⟨none, 0xee, some 0xbb, [], 0, 0, 0, none, none⟩
      shortStacks Registry.empty (i := 0) rfl).2 1 (by decide) (by decide +kernel)
    exact hlog.2 (by decide)
  · have hcreate := (missingOperands_mem_anomalies_iff ⟨none, 0xee, some 0xbb, [], 0, 0, 0, none, none⟩
      shortStacks Registry.empty (i := 1) rfl).1 1 f hf hstep
    exact hcreate.2 (by rw [htype]; decide)

/-- A call lacks the words for its output. -/
def callWithoutOutput : Trace where
  steps :=
    #[⟨0, "CALL", 1, 100, 10, [50, 0xcc, 0, 0, 0], none, none, none, none⟩,
      ⟨0, "STOP", 2, 60, 0, [], none, none, none, none⟩,
      ⟨1, "STOP", 1, 50, 0, [1], none, none, none, none⟩]
  dropped := []
  gasUsed := none
  failed := none
  returnValue := none
  depth_le := by simp [maxCallDepth]

/-- Not every call whose stack holds fewer words than the instruction takes off it shows that. -/
theorem not_forall_missingOperands_mem_anomalies :
    ¬ ∀ (tx : Transaction) (trace : Trace) (r : Registry) (i : Nat) (s : Step) (id : Nat) (f : Frame),
        trace.steps[i]? = some s → ((ofTrace tx trace).1.named r).1.frame? id = some f →
        f.callStep = some i →
        ((∃ op, .missingOperands i op ∈ anomalies tx trace r) ↔ s.stack.length < f.callType.pops) := by
  intro h
  have hframe : ((((ofTrace ⟨none, 0xee, some 0xbb, [], 0, 0, 0, none, none⟩ callWithoutOutput).1.named
      Registry.empty).1.frame? 1).map fun f => (f.callStep, f.callType)) = some (some 0, .call) := by
    decide +kernel
  have hnone : (anomalies ⟨none, 0xee, some 0xbb, [], 0, 0, 0, none, none⟩ callWithoutOutput
      Registry.empty).isEmpty = true := by decide +kernel
  obtain ⟨f, hf, hcall⟩ := Option.map_eq_some_iff.1 hframe
  obtain ⟨hstep, htype⟩ := Prod.mk.inj hcall
  obtain ⟨op, hmem⟩ := (h _ _ _ 0 _ 1 f rfl hf hstep).2 (by rw [htype]; decide)
  rw [List.isEmpty_iff.1 hnone] at hmem
  cases hmem

end CallTree

end TxTrace

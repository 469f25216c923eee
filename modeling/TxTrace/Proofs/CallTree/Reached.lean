import TxTrace.CallTree.Naming
import TxTrace.Proofs.CallTree.Coherent

/-!
The trees on the way through a trace, one for each number of steps (`Progress.reached`), and the
anomalies on the way: each of them belongs to the step that shows it, or to the end of the trace.
-/

namespace TxTrace

namespace Progress

variable {tx : Transaction} {steps : Array Step}

/-- The tree under construction after the first `n` steps. -/
def reached (tx : Transaction) (steps : Array Step) (n : Nat) : Progress :=
  run steps 0 (steps.toList.take n) (ofTransaction tx steps)

theorem reached_zero (tx : Transaction) (steps : Array Step) :
    reached tx steps 0 = ofTransaction tx steps := rfl

theorem reached_succ {n : Nat} {s : Step} (hs : steps[n]? = some s) :
    reached tx steps (n + 1) = (reached tx steps n).step steps n s := by
  have hlt : n < steps.size := (Array.getElem?_eq_some_iff.1 hs).1
  have htake : steps.toList.take (n + 1) = steps.toList.take n ++ [s] := by
    rw [List.take_add_one, Array.getElem?_toList, hs]
    rfl
  have hlength : 0 + (steps.toList.take n).length = n := by
    rw [List.length_take, Array.length_toList]
    omega
  rw [reached, htake, run_append, hlength]
  rfl

theorem reached_size (tx : Transaction) (steps : Array Step) :
    reached tx steps steps.size = run steps 0 steps.toList (ofTransaction tx steps) := by
  rw [reached, ← Array.length_toList, List.take_length]

theorem size_owners_reached (tx : Transaction) {n : Nat} (hn : n ≤ steps.size) :
    (reached tx steps n).owners.size = n := by
  have hzero : (ofTransaction tx steps).owners.size = 0 := rfl
  rw [reached, size_owners_run, List.length_take, Array.length_toList, hzero]
  omega

/-- Running on makes nothing but moves. -/
theorem moves_reached {m n : Nat} (hmn : m ≤ n) (hn : n ≤ steps.size) :
    Moves steps (reached tx steps m) (reached tx steps n) := by
  induction n, hmn using Nat.le_induction with
  | base => exact .refl
  | succ n hmn ih =>
    have hs : steps[n]? = some steps[n] := Array.getElem?_eq_getElem hn
    have hran := size_owners_reached tx (Nat.le_of_succ_le hn)
    have hstep := moves_step (reached tx steps n) (by rw [hran]; exact hs)
    rw [hran] at hstep
    rw [reached_succ hs]
    exact (ih (Nat.le_of_succ_le hn)).trans hstep

theorem coherent_reached (tx : Transaction) {n : Nat} (hn : n ≤ steps.size) :
    Coherent (reached tx steps n) :=
  (moves_reached (Nat.zero_le n) hn).preserves Move.coherent (coherent_ofTransaction tx steps)

theorem exists_back?_eq_some {i : Nat} (hi : i < steps.size) : ∃ last, steps.back? = some last :=
  ⟨_, Array.back?_eq_getElem?.trans (Array.getElem?_eq_getElem (by omega))⟩

/-- The tree of a trace with steps is closed from the one that its last step leaves. -/
theorem closed_eq_of_back? {trace : Trace} {last : Step} (hlast : trace.steps.back? = some last) :
    closed tx trace =
      ((reached tx trace.steps trace.steps.size).finishError trace.steps).finishOpen trace.steps := by
  have hne : trace.steps.isEmpty = false := by
    cases hempty : trace.steps.isEmpty with
    | false => rfl
    | true => simp [Array.isEmpty_iff.1 hempty] at hlast
  rw [closed, reached_size, hne]
  rfl

theorem moves_closed_reached {trace : Trace} {last : Step} {n : Nat}
    (hlast : trace.steps.back? = some last) (hn : n ≤ trace.steps.size) :
    Moves trace.steps (reached tx trace.steps n) (closed tx trace) := by
  have hran := size_owners_reached tx (Nat.le_refl trace.steps.size)
  rw [closed_eq_of_back? hlast]
  refine (moves_reached hn (Nat.le_refl _)).trans ((moves_finishError _ hran).trans ?_)
  exact moves_finishOpen _ (by rw [owners_finishError, hran])

/-- What the whole trace leaves and its end keeps, by ending frames and recording anomalies, holds of
    the closed tree. -/
theorem closed_preserves {P : Progress → Prop} {trace : Trace}
    (hrun : P (reached tx trace.steps trace.steps.size))
    (hempty : ∀ {b}, b.owners.size = 0 → P b → P (b.finishEmpty trace.failed))
    (hclose : ∀ {b ending}, Ends trace.steps b ending → P b → P (b.close trace.steps ending))
    (hrecord : ∀ {b} {a}, P b → P (b.record a)) : P (closed tx trace) := by
  have hall {b : Progress} (hran : b.owners.size = trace.steps.size) (hb : P b) :
      P (b.closeAll trace.steps) := by
    fun_induction closeAll trace.steps b with
    | case1 => exact hb
    | case2 b top rest hopened ih =>
      have hends : Ends trace.steps b ⟨before trace.steps.size, .unknown, none, none⟩ := hran ▸ .lost
      exact ih (by rw [owners_close, hran]) (hclose hends hb)
  have hfinish {b : Progress} (hran : b.owners.size = trace.steps.size) (hb : P b) :
      P ((b.finishError trace.steps).finishOpen trace.steps) := by
    have herror : P (b.finishError trace.steps) := by
      unfold finishError
      split
      · next top outer last hopened hlast =>
        split
        · next herror => exact hclose (.failed hlast hran hopened herror.1 herror.2) hb
        · exact hb
      · exact hb
    unfold finishOpen
    split
    · exact herror
    · exact hrecord (hall (by rw [owners_finishError, hran]) herror)
  have hran := size_owners_reached tx (Nat.le_refl trace.steps.size)
  unfold closed
  rw [← reached_size]
  dsimp only
  split
  · next hnone =>
    have hzero : trace.steps.size = 0 := by simpa using hnone
    exact hfinish hran (hempty (hran.trans hzero) hrun)
  · exact hfinish hran hrun

/-! ### Anomalies -/

end Progress

/-- The step at `i` can show the anomaly. -/
def Anomaly.OfStep (i : Nat) : Anomaly → Prop
  | .depthJump step _ _ => step = i
  | .missingOperands step _ => step = i
  | _ => False

theorem Anomaly.OfStep.unique {i j : Nat} {a : Anomaly} (hi : a.OfStep i) (hj : a.OfStep j) :
    i = j := by
  cases a with
  | depthJump | missingOperands => exact hi.symm.trans hj
  | _ => cases hi

namespace Progress

variable {tx : Transaction} {steps : Array Step} {b b' : Progress}

theorem mem_anomalies_record {a a' : Anomaly} :
    a ∈ (b.record a').anomalies ↔ a ∈ b.anomalies ∨ a = a' :=
  Array.mem_push

@[simp]
theorem anomalies_setDepth (b : Progress) (depth : Nat) :
    (b.setDepth depth).anomalies = b.anomalies := by
  unfold setDepth
  split <;> rfl

theorem anomalies_closeAbove (i depth : Nat) (b : Progress) :
    (b.closeAbove steps i depth).anomalies = b.anomalies := by
  fun_induction closeAbove steps i depth b with
  | case1 b top next rest hopened hlt ih => rw [ih, anomalies_close]
  | case2 => rfl
  | case3 => rfl

theorem anomalies_enterUnseen (i count : Nat) (b : Progress) :
    (b.enterUnseen i count).anomalies = b.anomalies := by
  induction count generalizing b with
  | zero => rfl
  | succ count ih => rw [enterUnseen, ih, anomalies_enter]

theorem anomalies_realign (i source depth : Nat) (b : Progress) :
    (b.realign steps i source depth).anomalies = b.anomalies := by
  unfold realign
  rw [anomalies_setDepth]
  split
  · exact anomalies_closeAbove i depth b
  · exact anomalies_enterUnseen i _ b

theorem depthJump_of_mem_align {i depth : Nat} {a : Anomaly}
    (h : a ∈ (b.align steps i depth).anomalies) :
    a ∈ b.anomalies ∨ ∃ source target, a = .depthJump i source target := by
  fun_induction align steps i depth b with
  | case1 => exact .inl h
  | case2 => exact .inl h
  | case3 b top rest hopened hne hhalt error ih => simpa using ih h
  | case4 b top rest hopened hne hhalt =>
    rw [anomalies_realign, mem_anomalies_record] at h
    exact h.imp_right fun heq => ⟨_, _, heq⟩

theorem missingOperands_of_mem_call {i : Nat} {s : Step} {type : CallType} {a : Anomaly}
    (h : a ∈ (b.call steps i s type).anomalies) :
    a ∈ b.anomalies ∨ a = .missingOperands i s.op := by
  have hcheck : a ∈ (b.checkOperands i s type).anomalies →
      a ∈ b.anomalies ∨ a = .missingOperands i s.op := by
    unfold checkOperands
    split
    · exact mem_anomalies_record.1
    · exact .inl
  by_cases hhalts : s.error.isSome ∨ (steps[i + 1]?).any (·.depth < s.depth)
  · rw [call_eq_self hhalts] at h
    exact .inl h
  · cases hnext : (steps[i + 1]?).filter (·.depth = s.depth) with
    | some next =>
      rw [call_eq_add hhalts hnext] at h
      exact hcheck (by simpa using h)
    | none =>
      rw [call_eq_enter hhalts hnext, anomalies_enter] at h
      exact hcheck h

/-- What an instruction does shows no depths. -/
theorem missingOperands_of_mem_execute {i : Nat} {s : Step} {a : Anomaly}
    (h : a ∈ (b.execute steps i s).anomalies) :
    a ∈ b.anomalies ∨ a = .missingOperands i s.op := by
  unfold execute at h
  split at h
  · exact missingOperands_of_mem_call h
  · exact .inl (by simpa [terminate] using h)
  · unfold log at h
    split at h
    · exact mem_anomalies_record.1 h
    · exact .inl h
  · exact .inl h

/-- A step shows no anomalies but its own. -/
theorem ofStep_of_mem_step {i : Nat} {s : Step} {a : Anomaly}
    (h : a ∈ (b.step steps i s).anomalies) : a ∈ b.anomalies ∨ a.OfStep i := by
  unfold step at h
  split at h
  · exact .inl h
  · rcases missingOperands_of_mem_execute h with h | rfl
    · have halign : a ∈ (b.align steps i s.depth).anomalies := by
        rw [← anomalies_settle _ s]
        exact h
      rcases depthJump_of_mem_align halign with h | ⟨_, _, rfl⟩
      · exact .inl h
      · exact .inr rfl
    · exact .inr rfl

theorem ofStep_of_mem_reached {n : Nat} (hn : n ≤ steps.size) {a : Anomaly}
    (h : a ∈ (reached tx steps n).anomalies) : ∃ i < n, a.OfStep i := by
  induction n with
  | zero => simp [reached_zero, ofTransaction] at h
  | succ n ih =>
    rw [reached_succ (Array.getElem?_eq_getElem hn)] at h
    rcases ofStep_of_mem_step h with h | h
    · obtain ⟨i, hi, ha⟩ := ih (Nat.le_of_succ_le hn) h
      exact ⟨i, Nat.lt_succ_of_lt hi, ha⟩
    · exact ⟨n, Nat.lt_succ_self n, h⟩

/-- Anomalies are never taken back. -/
theorem Move.mem_anomalies (hmove : Move steps b b') {a : Anomaly} (h : a ∈ b.anomalies) :
    a ∈ b'.anomalies := by
  cases hmove with
  | record a' => exact mem_anomalies_record.2 (.inl h)
  | close hends => simpa using h
  | enter hopened hbegins => simpa using h
  | codeless hopened hbegins => simpa using h
  | setDepth depth => simpa using h
  | settle hopened hs => simpa using h
  | own hopened => exact h
  | log hopened hs hran hkind =>
    unfold Progress.log
    split
    · exact mem_anomalies_record.2 (.inl h)
    · exact h
  | trail hclosed => exact h
  | finishEmpty failed hnone => exact h

theorem Moves.mem_anomalies (hmoves : Moves steps b b') {a : Anomaly} (h : a ∈ b.anomalies) :
    a ∈ b'.anomalies :=
  hmoves.preserves (P := fun b => a ∈ b.anomalies) (fun hmove => hmove.mem_anomalies) h

/-- What a step shows is not known before it runs. -/
theorem not_mem_anomalies_reached {i : Nat} (hi : i ≤ steps.size) {a : Anomaly} (ha : a.OfStep i) :
    a ∉ (reached tx steps i).anomalies := by
  intro h
  obtain ⟨j, hj, ha'⟩ := ofStep_of_mem_reached hi h
  exact Nat.ne_of_gt hj (ha.unique ha')

/-- What a step shows is known once it has run. -/
theorem mem_anomalies_reached_iff {i n : Nat} (hi : i < n) (hn : n ≤ steps.size) {a : Anomaly}
    (ha : a.OfStep i) :
    a ∈ (reached tx steps n).anomalies ↔ a ∈ (reached tx steps (i + 1)).anomalies := by
  constructor
  · intro h
    induction n, hi using Nat.le_induction with
    | base => exact h
    | succ n hin ih =>
      rw [reached_succ (Array.getElem?_eq_getElem hn)] at h
      rcases ofStep_of_mem_step h with h | h
      · exact ih (Nat.le_of_succ_le hn) h
      · exact absurd (ha.unique h) (Nat.ne_of_lt hin)
  · exact (moves_reached hi hn).mem_anomalies

theorem anomalies_finishError (b : Progress) :
    (b.finishError steps).anomalies = b.anomalies := by
  unfold finishError
  split
  · split
    · exact anomalies_close b _
    · rfl
  · rfl

theorem anomalies_closeAll (b : Progress) : (b.closeAll steps).anomalies = b.anomalies := by
  fun_induction closeAll steps b with
  | case1 => rfl
  | case2 b top rest hopened ih => rw [ih, anomalies_close]

/-- The end of the trace adds that frames were open, if they were. -/
theorem mem_anomalies_finishOpen {a : Anomaly} (h : a ∈ (b.finishOpen steps).anomalies) :
    a ∈ b.anomalies ∨ ∃ n, a = .truncatedTrace n := by
  unfold finishOpen at h
  split at h
  · exact .inl h
  · rcases mem_anomalies_record.1 h with h | rfl
    · rw [anomalies_closeAll] at h
      exact .inl h
    · exact .inr ⟨_, rfl⟩

theorem mem_anomalies_closed {trace : Trace} {last : Step} (hlast : trace.steps.back? = some last)
    {a : Anomaly} (h : a ∈ (closed tx trace).anomalies) :
    a ∈ (reached tx trace.steps trace.steps.size).anomalies ∨ ∃ n, a = .truncatedTrace n := by
  rw [closed_eq_of_back? hlast] at h
  have hmem := mem_anomalies_finishOpen h
  rwa [anomalies_finishError] at hmem

end Progress

/-- A value did not decode. -/
def Anomaly.IsUndecoded : Anomaly → Prop
  | .undecodedInput _ _ | .undecodedOutput _ _ => True
  | _ => False

/-- The frame whose data does not decode, if that is what the anomaly says. -/
def Anomaly.undecodedFrame? : Anomaly → Option Nat
  | .undecodedInput frame _ | .undecodedOutput frame _ => some frame
  | _ => none

theorem Anomaly.isUndecoded_of_undecodedFrame? {a : Anomaly} {id : Nat} (h : a.undecodedFrame? = some id) :
    a.IsUndecoded := by
  cases a with
  | undecodedInput | undecodedOutput => trivial
  | _ => cases h

theorem mem_attempt_iff {α : Type} {decoded : Except Abi.DecodeError α}
    {anomaly : Abi.DecodeError → Anomaly} {a : Anomaly} :
    a ∈ (attempt decoded anomaly).2 ↔ ∃ cause, decoded = .error cause ∧ a = anomaly cause := by
  cases decoded <;> simp [attempt]

section undecodedFrame

variable {id : Nat} {f : Frame} {a : Anomaly}

theorem undecodedFrame?_of_mem_attempt {α : Type} {decoded : Except Abi.DecodeError α}
    {anomaly : Abi.DecodeError → Anomaly} (h : a ∈ (attempt decoded anomaly).2)
    (hanomaly : ∀ cause, (anomaly cause).undecodedFrame? = some id) : a.undecodedFrame? = some id := by
  obtain ⟨cause, -, rfl⟩ := mem_attempt_iff.1 h
  exact hanomaly cause

theorem Contract.undecodedFrame?_of_mem_nameCreation {c : Contract} (h : a ∈ (c.nameCreation id f).2) :
    a.undecodedFrame? = some id := by
  unfold nameCreation at h
  dsimp only at h
  split at h
  · split at h
    · exact undecodedFrame?_of_mem_attempt h fun _ => rfl
    · cases h
  · cases h

theorem Contract.undecodedFrame?_of_mem_nameCall {c : Contract} (h : a ∈ (c.nameCall id f).2) :
    a.undecodedFrame? = some id := by
  unfold nameCall at h
  split at h
  · cases h
  · split at h
    · cases h
    · rcases List.mem_append.1 h with h | h
      · exact undecodedFrame?_of_mem_attempt h fun _ => rfl
      · split at h
        · exact undecodedFrame?_of_mem_attempt h fun _ => rfl
        · cases h

/-- What is reported while a frame is named concerns its own data. -/
theorem Registry.undecodedFrame?_of_mem_name {r : Registry} (h : a ∈ (r.name id f).2) :
    a.undecodedFrame? = some id := by
  unfold name at h
  split at h
  · cases h
  · split at h
    · exact Contract.undecodedFrame?_of_mem_nameCreation h
    · exact Contract.undecodedFrame?_of_mem_nameCall h

end undecodedFrame

namespace CallTree

/-- All that looked wrong while the tree of a trace was built and named. -/
def anomalies (tx : Transaction) (trace : Trace) (r : Registry) : List Anomaly :=
  (ofTrace tx trace).2.toList ++ ((ofTrace tx trace).1.named r).2

/-- Names add nothing but what does not decode. -/
theorem isUndecoded_of_mem_named {r : Registry} {tree : CallTree} {a : Anomaly}
    (h : a ∈ (tree.named r).2) : a.IsUndecoded := by
  simp only [named, List.mem_flatMap] at h
  obtain ⟨name, hname, ha⟩ := h
  obtain ⟨id, hid⟩ := List.mem_iff_getElem?.1 hname
  rw [Array.getElem?_toList, Array.getElem?_mapIdx] at hid
  obtain ⟨f, _, rfl⟩ := Option.map_eq_some_iff.1 hid
  exact Anomaly.isUndecoded_of_undecodedFrame? (Registry.undecodedFrame?_of_mem_name ha)

/-- What a step shows is among all that looked wrong exactly if it is known once the step has run. -/
theorem mem_anomalies_iff_of_ofStep (tx : Transaction) {trace : Trace} (r : Registry) {i : Nat}
    (hi : i < trace.steps.size) {a : Anomaly} (ha : a.OfStep i) :
    a ∈ anomalies tx trace r ↔ a ∈ (Progress.reached tx trace.steps (i + 1)).anomalies := by
  obtain ⟨last, hlast⟩ := Progress.exists_back?_eq_some hi
  rw [← Progress.mem_anomalies_reached_iff hi (Nat.le_refl _) ha, anomalies, List.mem_append,
    Array.mem_toList_iff, Progress.anomalies_ofTrace, Array.mem_append]
  constructor
  · rintro ((h | h) | h)
    · rcases Progress.mem_anomalies_closed hlast h with h | ⟨n, rfl⟩
      · exact h
      · cases ha
    · cases htrailing : (Progress.closed tx trace).trailing with
      | none => simp [htrailing] at h
      | some trailing =>
        obtain rfl : a = .trailingSteps trailing.1 trailing.2 := by simpa [htrailing] using h
        cases ha
    · have hundecoded := isUndecoded_of_mem_named h
      cases a with
      | depthJump | missingOperands => cases hundecoded
      | _ => cases ha
  · intro h
    exact .inl (.inl ((Progress.moves_closed_reached hlast (Nat.le_refl _)).mem_anomalies h))

end CallTree

end TxTrace

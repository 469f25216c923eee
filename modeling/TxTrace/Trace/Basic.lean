import TxTrace.Trace.Record

/-!
Traces: the steps of a transaction in the order of their execution, and what else the node said of
it. Records that are no steps are dropped and listed; a trace is only refused when it is no JSON
object or array at all.
-/

namespace TxTrace

/-- What a node reports of the execution of a transaction. -/
structure Trace where
  steps : Array Step
  /-- The records that are no steps, by their position among all records. -/
  dropped : List (Nat × StepError)
  gasUsed : Option Nat
  failed : Option Bool
  returnValue : Option Bytes
  /-- Steps run no deeper than calls may nest. -/
  depth_le : ∀ s ∈ steps, s.depth ≤ maxCallDepth + 1

namespace Trace

/-- The innermost object in the fields `result` of the objects around it. -/
def payload (json : Json) : Json :=
  match _h : json.get? "result" with
  | some (.obj fields) => payload (.obj fields)
  | _ => json
termination_by sizeOf json
decreasing_by exact Json.sizeOf_get?_lt _h

/-- The steps among records, in their order. -/
def readSteps (records : List Json) : List Step :=
  records.filterMap fun r => (Step.ofJson r).toOption

/-- The records that are no steps, by position. -/
def readDropped (records : List Json) : List (Nat × StepError) :=
  records.zipIdx.filterMap fun (r, i) =>
    match Step.ofJson r with
    | .ok _ => none
    | .error cause => some (i, cause)

theorem depth_le_of_mem_readSteps {records : List Json} {s : Step} (h : s ∈ readSteps records) :
    s.depth ≤ maxCallDepth + 1 := by
  obtain ⟨r, _, hr⟩ := List.mem_filterMap.1 h
  cases hok : Step.ofJson r with
  | error => simp [hok, Except.toOption] at hr
  | ok t =>
    simp only [hok, Except.toOption, Option.some.injEq] at hr
    exact hr ▸ Step.depth_le_of_ofJson hok

/-- The trace that consists of records alone. -/
def ofRecords (records : List Json) : Trace where
  steps := (readSteps records).toArray
  dropped := readDropped records
  gasUsed := none
  failed := none
  returnValue := none
  depth_le := fun _ h => depth_le_of_mem_readSteps (List.mem_toArray.1 h)

/-- The first of the fields `names` that `read` accepts. -/
def firstField {α : Type} (json : Json) (names : List String) (read : Json → Option α) :
    Option α :=
  names.findSome? fun name => json.get? name >>= read

/-- The trace in a JSON value in normal form: an array of records, or an object with such an array
    among its fields. An object may stand in the field `result` of another. -/
def ofJson (json : Json) : Except FormatError Trace :=
  match payload json with
  | .arr records => .ok (ofRecords records)
  | .obj fields =>
    let json := Json.obj fields
    let records := firstField json ["structLogs", "struct_logs", "steps"] Json.arr?
    .ok { ofRecords (records.getD []) with
      gasUsed := firstField json ["gas", "gasUsed", "gas_used"] fun value =>
        (Quantity.ofJson value).toOption
      failed := json.get? "failed" >>= Json.bool?
      returnValue := firstField json ["returnValue", "return_value"] fun value =>
        value.str? >>= fun text => (Quantity.bytes text).toOption }
  | _ => .error .notTrace

end Trace

end TxTrace

import TxTrace.Keyed
import TxTrace.Result
import TxTrace.Text.Quoted
import TxTrace.Trace.Step

/-!
Steps as a node prints them: JSON records whose fields may be missing, misspelt or of the wrong
type. A record is either read whole or dropped for the first thing wrong with it, and
`depth_le_of_ofJson` says that a step that was read runs no deeper than calls may nest.
-/

namespace TxTrace

/-- What a field of a record should have been. -/
inductive Expected where
  | record
  | string
  | sequence
  | map
deriving DecidableEq, Repr

/-- Why a record is no step. -/
inductive StepError where
  | wrongType (found : Json) (expected : Expected)
  | memoryShape
  | duplicateField (name : String)
  /-- A record written as an array that has more items than a record has fields. -/
  | tooManyItems (count : Nat)
  | missing (name : String)
  | depthOutOfRange (depth : Nat)
  | format (cause : FormatError)

/-- What a JSON value is, in the wording of a type error. -/
def Json.describe : Json → String
  | .null => "null"
  | .bool b => s!"boolean `{(Json.bool b).compact}`"
  | .int n => s!"integer `{n}`"
  | .float x => s!"floating point `{floatText x}`"
  | .str s => s!"string {Text.quote s}"
  | .arr _ => "sequence"
  | .obj _ => "map"

/-- The wording of what was expected. -/
def Expected.describe : Expected → String
  | .record => "struct RawStep"
  | .string => "a string"
  | .sequence => "a sequence"
  | .map => "a map"

def StepError.message : StepError → String
  | .wrongType found expected => s!"invalid type: {found.describe}, expected {expected.describe}"
  | .memoryShape => "data did not match any variant of untagged enum RawMemory"
  | .duplicateField name => s!"duplicate field `{name}`"
  | .tooManyItems count => s!"invalid length {count}, expected fewer elements in array"
  | .missing name => s!"missing {name}"
  | .depthOutOfRange depth => s!"depth {depth} out of range"
  | .format cause => cause.message

/-- A field of a record. -/
inductive StepField where
  | pc
  | op
  | depth
  | gas
  | gasCost
  | stack
  | memory
  | storage
  | returnData
  | error
deriving DecidableEq, Repr

namespace StepField

/-- The fields in the order of a record written as an array. -/
def all : List StepField :=
  [pc, op, depth, gas, gasCost, stack, memory, storage, returnData, error]

/-- The name of a field. -/
def name : StepField → String
  | pc => "pc"
  | op => "op"
  | depth => "depth"
  | gas => "gas"
  | gasCost => "gasCost"
  | stack => "stack"
  | memory => "memory"
  | storage => "storage"
  | returnData => "returnData"
  | error => "error"

/-- The field that a name denotes. Two fields have a second spelling. -/
def ofName? (key : String) : Option StepField :=
  if key = "gas_cost" then some gasCost
  else if key = "return_data" then some returnData
  else all.find? (·.name == key)

end StepField

/-- The memory of a record: a list of words, or one text. -/
inductive MemoryRecord where
  | words (words : List String)
  | flat (text : String)
deriving DecidableEq, Repr

/-- A record whose fields have the right types. -/
structure StepRecord where
  pc : Option Nat := none
  op : Option String := none
  depth : Option Nat := none
  gas : Option Nat := none
  gasCost : Option Nat := none
  stack : Option (List String) := none
  memory : Option MemoryRecord := none
  storage : Option (List (String × String)) := none
  returnData : Option String := none
  error : Option Json := none

namespace StepRecord

/-- A number in a record. -/
def readNat (json : Json) : Except StepError Nat := (Quantity.ofJson json).mapError .format

/-- A text in a record. -/
def readString : Json → Except StepError String
  | .str s => .ok s
  | json => .error (.wrongType json .string)

/-- A list of texts in a record. -/
def readStrings : Json → Except StepError (List String)
  | .arr items => items.mapM readString
  | json => .error (.wrongType json .sequence)

/-- The memory of a record. -/
def readMemory (json : Json) : Except StepError MemoryRecord :=
  match json, readStrings json with
  | .str text, _ => .ok (.flat text)
  | _, .ok words => .ok (.words words)
  | _, .error _ => .error .memoryShape

/-- The storage of a record. -/
def readStorage : Json → Except StepError (List (String × String))
  | .obj fields => fields.mapM fun (slot, value) => do return (slot, ← readString value)
  | json => .error (.wrongType json .map)

/-- The record with one more field. Null is no value. -/
def set (r : StepRecord) (field : StepField) (json : Json) : Except StepError StepRecord :=
  match field, json with
  | _, .null => .ok r
  | .pc, json => do return { r with pc := ← readNat json }
  | .op, json => do return { r with op := ← readString json }
  | .depth, json => do return { r with depth := ← readNat json }
  | .gas, json => do return { r with gas := ← readNat json }
  | .gasCost, json => do return { r with gasCost := ← readNat json }
  | .stack, json => do return { r with stack := ← readStrings json }
  | .memory, json => do return { r with memory := ← readMemory json }
  | .storage, json => do return { r with storage := ← readStorage json }
  | .returnData, json => do return { r with returnData := ← readString json }
  | .error, json => .ok { r with error := some json }

/-- The record with the fields of an object, in their order, `seen` being those it has already.
    Other names are ignored. -/
def setNamed (seen : List StepField) (r : StepRecord) :
    List (String × Json) → Except StepError StepRecord
  | [] => .ok r
  | (key, json) :: rest =>
    match StepField.ofName? key with
    | none => setNamed seen r rest
    | some field =>
      if field ∈ seen then .error (.duplicateField field.name)
      else do setNamed (field :: seen) (← r.set field json) rest

/-- The record with the fields `fields`, as far as there are items for them. -/
def setItems (r : StepRecord) : List StepField → List Json → Except StepError StepRecord
  | field :: fields, json :: items => do setItems (← r.set field json) fields items
  | _, _ => .ok r

/-- The record that a JSON value in normal form is: an object, or an array of the fields in order. -/
def ofJson : Json → Except StepError StepRecord
  | .obj fields => setNamed [] {} fields
  | .arr items => do
    let r ← setItems {} StepField.all items
    if StepField.all.length < items.length then .error (.tooManyItems items.length) else .ok r
  | json => .error (.wrongType json .record)

/-- A field that every step has. -/
def need {α : Type} (name : String) : Option α → Except StepError α
  | some a => .ok a
  | none => .error (.missing name)

/-- A depth that steps run at. -/
def checkDepth (depth : Nat) : Except StepError Nat :=
  if depth ≤ maxCallDepth + 1 then .ok depth else .error (.depthOutOfRange depth)

/-- The bytes of a memory. -/
def memoryBytes : MemoryRecord → Except FormatError Bytes
  | .words words => do return (← words.mapM Quantity.bytes).flatten
  | .flat text => Quantity.bytes text

/-- The slots of a storage. A slot spelt twice has the value that is written last. -/
def storageSlots (entries : List (String × String)) : Except FormatError (List (Word × Word)) := do
  let slots ← entries.mapM fun (slot, value) => do
    return (← Quantity.word slot, ← Quantity.word value)
  return slots.foldl (fun slots (slot, value) => Keyed.insert slot value slots) []

/-- What is said about an error: a text as it is, any other value by its JSON text. -/
def errorText : Json → String
  | .str s => s
  | json => json.compact

/-- The step that a record is. -/
def toStep (r : StepRecord) : Except StepError Step := do
  let pc ← need "pc" r.pc
  let op ← need "op" r.op
  let depth ← need "depth" r.depth >>= checkDepth
  let gas ← need "gas" r.gas
  let gasCost ← need "gasCost" r.gasCost
  let stack ← ((r.stack.getD []).mapM Quantity.word).mapError .format
  let memory ← (r.memory.mapM memoryBytes).mapError .format
  let storage ← (r.storage.mapM storageSlots).mapError .format
  let returnData ← (r.returnData.mapM Quantity.bytes).mapError .format
  return {
    pc := .ofNat pc
    op, depth
    gas := .ofNat gas
    gasCost := .ofNat gasCost
    stack := stack.reverse
    memory, storage, returnData
    error := r.error.map errorText }

theorem le_of_checkDepth {depth d : Nat} (h : checkDepth depth = .ok d) :
    d ≤ maxCallDepth + 1 := by
  unfold checkDepth at h
  split at h
  · next hle => exact Except.ok.inj h ▸ hle
  · simp at h

/-- A step that was read runs no deeper than calls may nest. -/
theorem depth_le_of_toStep {r : StepRecord} {s : Step} (h : r.toStep = .ok s) :
    s.depth ≤ maxCallDepth + 1 := by
  simp only [toStep, bind_eq_ok_iff] at h
  obtain ⟨_, _, _, _, depth, ⟨_, _, hdepth⟩, _, _, _, _, _, _, _, _, _, _, _, _, hs⟩ := h
  rw [← Except.ok.inj hs]
  exact le_of_checkDepth hdepth

end StepRecord

/-- The step that a JSON record in normal form is. -/
def Step.ofJson (json : Json) : Except StepError Step := StepRecord.ofJson json >>= StepRecord.toStep

theorem Step.depth_le_of_ofJson {json : Json} {s : Step} (h : Step.ofJson json = .ok s) :
    s.depth ≤ maxCallDepth + 1 := by
  obtain ⟨_, _, hs⟩ := bind_eq_ok_iff.1 h
  exact StepRecord.depth_le_of_toStep hs

end TxTrace

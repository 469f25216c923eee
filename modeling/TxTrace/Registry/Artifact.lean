import TxTrace.Json.Reader
import TxTrace.Json.Record
import TxTrace.Registry.Basic

/-!
Contracts as compilers describe them, and files that hold such artifacts by address.
-/

namespace TxTrace

/-- What a compiler says of a contract. -/
structure Artifact where
  name : String
  abi : Json
  bytecode : Option String
  sourceMap : Option String
  deployedBytecode : Option String
  deployedSourceMap : Option String
  sourceList : List String
  sources : List (String × String)

/-- Why there is no contract, or no registry. -/
inductive ArtifactError where
  /-- The file cannot be read. -/
  | unreadable
  | invalidJson
  | interface (cause : Abi.InterfaceError)
  | bytecode (cause : Hex.Error)
  | sourceMap (cause : Source.MapError)
  | address (text : String)

def ArtifactError.message : ArtifactError → String
  | .unreadable => "Failed to read artifact"
  | .invalidJson => "Failed to parse artifact JSON"
  | .interface cause => s!"Invalid ABI: {cause.message}"
  | .bytecode cause => s!"Invalid bytecode: {cause.message}"
  | .sourceMap cause =>
    s!"Invalid source map at entry {cause.index}: '{cause.text}': {cause.cause.message}"
  | .address text => s!"Invalid contract address '{text}'"

namespace Artifact

/-- The fields of an artifact. -/
def fields : List String :=
  ["contractName", "abi", "bytecode", "sourceMap", "deployedBytecode", "deployedSourceMap",
    "sourceList", "sources"]

/-- The texts of the fields of an object, sorted by key. -/
def texts? (json : Json) : Option (List (String × String)) := do
  let texts ← (← json.fields?).mapM fun (path, text) => do return (path, ← text.str?)
  return Json.sortFields texts

/-- The artifact in a JSON record. -/
def ofJson? (json : Json) : Option Artifact := do
  let r ← Json.Record.ofJson? fields 1 json
  return {
    name := ← r.required "contractName" Json.str?
    abi := ← r.withDefault "abi" .null fun abi => some abi.normal
    bytecode := ← r.nullable "bytecode" Json.str?
    sourceMap := ← r.nullable "sourceMap" Json.str?
    deployedBytecode := ← r.nullable "deployedBytecode" Json.str?
    deployedSourceMap := ← r.nullable "deployedSourceMap" Json.str?
    sourceList := ← r.withDefault "sourceList" [] (Json.list? Json.str?)
    sources := ← r.withDefault "sources" [] texts? }

/-- A text that says something: it is neither blank nor a lone `0x`. -/
def present (text : Option String) : Option String :=
  text.filter fun s =>
    let trimmed := Text.trim s.toList
    !trimmed.isEmpty && trimmed != ['0', 'x']

/-- The bytes of code in hex. Every character that is no hex digit reads as zero, so that the
    address of a library that is not linked yet is the zero address. -/
def readCode (code : String) : Except ArtifactError Bytes :=
  let digits := (Hex.stripMark (Text.trim code.toList)).map fun c =>
    if (Hex.value? c).isSome then c else '0'
  (Hex.read digits).mapError .bytecode

/-- The source map of `code`, when both are there. -/
def readMap (map : Option String) (code : Option Bytes) (files : List String) :
    Except ArtifactError (Option Source.Map) :=
  match present map, code with
  | some map, some code => ((Source.Map.ofText map code files).mapError .sourceMap).map some
  | _, _ => .ok none

/-- The contract that an artifact describes. -/
def toContract (a : Artifact) : Except ArtifactError Contract := do
  let abi ←
    match a.abi with
    | .null => .ok Abi.Interface.empty
    | abi => (Abi.Interface.ofJson abi).mapError .interface
  let creationCode ← (present a.bytecode).mapM readCode
  let code ← (present a.deployedBytecode).mapM readCode
  let sourceMap ← readMap a.deployedSourceMap code a.sourceList
  let creationMap ← readMap a.sourceMap creationCode a.sourceList
  return { name := a.name, abi, sourceMap, creationMap, sources := a.sources, creationCode }

end Artifact

namespace Registry

/-- What is read of a registry file. -/
def shape : Json.Shape :=
  .ofFields ["contracts"] [("contracts", .entries (.ofFields Artifact.fields []))]

/-- The artifacts in the text of a registry file, by the texts of their addresses. -/
def artifacts? (text : String) : Option (List (String × Artifact)) := do
  let r ← Json.Record.ofJson? ["contracts"] 1 (← Json.readAs? shape text)
  let fields ← r.required "contracts" Json.fields?
  let artifacts ← fields.mapM fun (key, json) => do return (key, ← Artifact.ofJson? json)
  return Json.sortFields artifacts

/-- The registry with an artifact at the address that a text denotes. -/
def insertArtifact (r : Registry) (key : String) (a : Artifact) : Except ArtifactError Registry :=
  match Hex.address? key with
  | none => .error (.address key)
  | some address => do return r.insert address (← a.toContract)

/-- The registry in the text of a file. Artifacts are taken in the order of their keys. -/
def ofText (text : String) : Except ArtifactError Registry :=
  match artifacts? text with
  | none => .error .invalidJson
  | some artifacts => artifacts.foldlM (fun r (key, a) => r.insertArtifact key a) empty

end Registry

end TxTrace

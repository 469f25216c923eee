import TxTrace.Command.Analyze

/-!
The command line: options, the commands they belong to, and the help on both. Options are read from
left to right; the first thing wrong with them, or the first request for help or for the version,
ends the reading.
-/

namespace TxTrace.Command

/-- What an option stands for. -/
inductive OptionKind where
  | flag
  | text
  /-- A path, which is not empty. -/
  | path
  | count
  | help
  | version
deriving DecidableEq, Repr

namespace OptionKind

def takesValue : OptionKind → Bool
  | text | path | count => true
  | _ => false

/-- Whether a text is a value of the option. -/
def accepts (value : String) : OptionKind → Bool
  | path => !value.isEmpty
  | count => (Text.readU64 value.toList).toBool
  | _ => true

end OptionKind

/-- An option. -/
structure Spec where
  long : String
  short : Option Char
  kind : OptionKind
  about : String
  required : Bool := false
deriving DecidableEq, Repr

namespace Spec

/-- How the option is written in full, with the name of its value. -/
def longForm (s : Spec) : String :=
  if s.kind.takesValue then s!"--{s.long} <{s.long.toUpper}>" else s!"--{s.long}"

/-- All ways in which the option is written. -/
def form (s : Spec) : String :=
  match s.short with
  | some c => s!"-{c}, {s.longForm}"
  | none => s!"    {s.longForm}"

end Spec

/-- Why the reading of a command line ends early. -/
inductive Interruption where
  /-- Help is wanted, on one command or on all. -/
  | help (command : Option String)
  | version
  /-- The command line is not understood. -/
  | usage
deriving DecidableEq, Repr

/-- The options found so far, by name, with their values. -/
abbrev Options := List (String × String)

def commonSpecs : List Spec := [
  { long := "verbose", short := some 'v', kind := .flag, about := "Enable verbose logging" },
  { long := "help", short := some 'h', kind := .help, about := "Print help" }]

/-- The options in front of the command. -/
def programSpecs : List Spec :=
  commonSpecs ++ [
    { long := "version", short := some 'V', kind := .version, about := "Print version" }]

/-- One more option. None may be given twice. -/
def give (spec : Spec) (value : String) (found : Options) : Except Interruption Options :=
  match spec.kind with
  | .help => .error (.help none)
  | .version => .error .version
  | kind =>
    if (found.lookup spec.long).isSome ∨ !kind.accepts value then .error .usage
    else .ok ((spec.long, value) :: found)

/-- A value after the option it belongs to. It may not look like an option itself. -/
def isValue (token : String) : Bool := token == "-" || !token.startsWith "-"

/-- One token of short options: the options in it, and the last of them if its value is the next
    token. The value of an option may follow in the token itself, after `=` or not. -/
def readShort (specs : List Spec) : Options → List Char →
    Except Interruption (Options × Option Spec)
  | found, [] => .ok (found, none)
  | found, c :: cs =>
    match specs.find? (·.short == some c) with
    | none => .error .usage
    | some spec =>
      if spec.kind.takesValue then
        match cs with
        | [] => .ok (found, some spec)
        | '=' :: value => do return (← give spec (String.ofList value) found, none)
        | value => do return (← give spec (String.ofList value) found, none)
      else do readShort specs (← give spec "" found) cs

/-- One long option: its name and, after `=`, its value. -/
def readLong (specs : List Spec) (found : Options) (cs : List Char) :
    Except Interruption (Options × Option Spec) :=
  let name := String.ofList (cs.takeWhile (· != '='))
  match specs.find? (·.long == name), cs.dropWhile (· != '=') with
  | none, _ => .error .usage
  | some spec, [] =>
    if spec.kind.takesValue then .ok (found, some spec)
    else do return (← give spec "" found, none)
  | some spec, _ :: value =>
    if spec.kind.takesValue then do return (← give spec (String.ofList value) found, none)
    else .error .usage

/-- One token: what is found with the options in it, if it is one of options. -/
def readToken (specs : List Spec) (found : Options) (token : String) :
    Except Interruption (Option (Options × Option Spec)) :=
  match token.toList with
  | ['-', '-'] => .error .usage
  | '-' :: '-' :: cs => (readLong specs found cs).map some
  | '-' :: c :: cs => (readShort specs found (c :: cs)).map some
  | _ => .ok none

/-- The options at the front of a command line, and what follows them from the first token on that
    is none. -/
def readOptions (specs : List Spec) : Options → List String →
    Except Interruption (Options × List String)
  | found, [] => .ok (found, [])
  | found, token :: rest =>
    match readToken specs found token with
    | .error e => .error e
    | .ok none => .ok (found, token :: rest)
    | .ok (some (found, none)) => readOptions specs found rest
    | .ok (some (found, some spec)) =>
      match rest with
      | [] => .error .usage
      | value :: rest =>
        match if isValue value then give spec value found else .error .usage with
        | .error e => .error e
        | .ok found => readOptions specs found rest

/-- The options of a command, after which nothing may follow. A lone `--` says that none do. -/
def readAll (specs : List Spec) (tokens : List String) : Except Interruption Options := do
  let tokens := if tokens.getLast? = some "--" then tokens.dropLast else tokens
  match ← readOptions (specs ++ commonSpecs) [] tokens with
  | (found, []) => return found
  | _ => throw .usage

/-- The options of the analysis of a transaction, `environment` being the address of a node that the
    environment names. -/
def analysisSpecs (environment : Option String) : List Spec :=
  let named := environment.getD ""
  [{ long := "rpc", short := some 'r', kind := .text
     about := s!"RPC endpoint URL [env: EVM_TRACE_RPC={named}] [default: {defaultUrl}]" },
    { long := "tx", short := some 't', kind := .text, about := "Transaction hash to analyze"
      required := true },
    { long := "contracts", short := some 'c', kind := .path
      about := "Contract registry JSON (address -> compiler artifact)" },
    { long := "output", short := some 'o', kind := .path
      about := "Output path for the JSON report (optional)" },
    { long := "pad", short := none, kind := .count
      about := "Lines of source context around the failing statement [default: 3]" },
    { long := "steps", short := none, kind := .flag
      about := "Print every execution step with its source location" }]

def validationSpecs : List Spec := [
  { long := "file", short := some 'f', kind := .path, about := "Path to report JSON file"
    required := true }]

def schemaSpecs : List Spec := [
  { long := "show", short := none, kind := .flag, about := "Show full schema details" }]

/-- The commands: their names, what they do, and their options. -/
def commands (environment : Option String) : List (String × String × List Spec) := [
  ("analyze", "Analyze a transaction", analysisSpecs environment),
  ("validate", "Validate a report JSON file", validationSpecs),
  ("schema", "Display report schema information", schemaSpecs),
  ("version", "Display version information", [])]

/-- The analysis that the options order. The transaction must be given. -/
def analysisOrder (environment : Option String) (found : Options) :
    Except Interruption AnalysisOrder :=
  let order : AnalysisOrder := {}
  match found.lookup "tx" with
  | none => .error .usage
  | some hash => .ok {
      url := ((found.lookup "rpc").or environment).getD order.url
      hash
      contracts := found.lookup "contracts"
      output := found.lookup "output"
      pad := ((found.lookup "pad").bind fun s => (Text.readU64 s.toList).toOption).getD order.pad
      withSteps := (found.lookup "steps").isSome }

/-- The command that a name and its options stand for. -/
def ofOptions (environment : Option String) (name : String) (found : Options) :
    Except Interruption Command :=
  match name with
  | "analyze" => do
    let order ← analysisOrder environment found
    return do
      checkOrder order
      analyze order
  | "validate" =>
    match found.lookup "file" with
    | some path => .ok (validate path)
    | none => .error .usage
  | "schema" => .ok (schema (found.lookup "show").isSome)
  | _ => .ok version

/-- The command that a name and the tokens after it stand for. -/
def ofName (environment : Option String) (name : String) (tokens : List String) :
    Except Interruption Command :=
  match (commands environment).lookup name, name, tokens with
  | some (_, specs), _, _ =>
    match readAll specs tokens with
    | .ok found => ofOptions environment name found
    | .error (.help _) => .error (.help (some name))
    | .error e => .error e
  | none, "help", [] => .error (.help none)
  | none, "help", [other] =>
    .error (if ((commands environment).lookup other).isSome then .help (some other) else .usage)
  | none, _, _ => .error .usage

/-- The command that a command line stands for. -/
def ofLine (environment : Option String) (tokens : List String) :
    Except Interruption Command := do
  match ← readOptions programSpecs [] tokens with
  | (_, name :: rest) => ofName environment name rest
  | (_, []) => throw .usage

def programHelp (environment : Option String) : List String :=
  ["Call-tree reconstruction and ABI decoding for EVM transaction traces", "",
    "Usage: evm-trace [OPTIONS] <COMMAND>", "", "Commands:"] ++
  Text.table (((commands environment).map fun (name, about, _) => (name, about)) ++
    [("help", "Print this message or the help of the given subcommand(s)")]) ++
  ["", "Options:"] ++ Text.table (programSpecs.map fun s => (s.form, s.about))

def commandHelp (name about : String) (specs : List Spec) : List String :=
  let required := (specs.filter (·.required)).map (·.longForm)
  [about, "", " ".intercalate (["Usage: evm-trace", name, "[OPTIONS]"] ++ required), "", "Options:"] ++
  Text.table ((specs ++ commonSpecs).map fun s => (s.form, s.about))

/-- The help on a command, or on the whole program. -/
def helpText (environment : Option String) (command : Option String) : String :=
  Text.unlines <|
    match command.bind fun name => ((commands environment).lookup name).map (name, ·) with
    | some (name, about, specs) => commandHelp name about specs
    | none => programHelp environment

/-- What a script that answers for a whole command line ends with: the exit code, and what went wrong
    as lines for the error output. -/
abbrev Exit := UInt8 × List String

/-- The whole program: the command that a command line stands for, and its exit code. Help and the
    version are printed; a command line that is not understood has the code 2, and a command that
    fails the code 1. -/
def program (environment : Option String) (tokens : List String) : Script Exit :=
  match ofLine environment tokens with
  | .error (.help command) => .print (helpText environment command) (.done (0, []))
  | .error .version => .print s!"evm-trace {programVersion}\n" (.done (0, []))
  | .error .usage => .done (2, ["error: see 'evm-trace --help' for the usage"])
  | .ok command => do
    match ← command.run with
    | .ok () => return (0, [])
    | .error e =>
      return (1, s!"Error: {e.message}" :: (e.cause?.map fun cause => s!"Caused by: {cause}").toList)

end TxTrace.Command

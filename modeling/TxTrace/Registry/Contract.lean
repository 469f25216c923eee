import TxTrace.Abi.Interface
import TxTrace.Source.Excerpt
import TxTrace.Source.Map

/-!
Contracts as their authors know them: name, interface, code and sources.
-/

namespace TxTrace

/-- What is known of a contract. -/
structure Contract where
  name : String
  abi : Abi.Interface := .empty
  /-- The source map of the code that calls run. -/
  sourceMap : Option Source.Map := none
  /-- The source map of the code that creation runs. -/
  creationMap : Option Source.Map := none
  /-- The texts of the sources by path, sorted by path. -/
  sources : List (String × String) := []
  /-- The code that creation runs, in front of the constructor's arguments. -/
  creationCode : Option Bytes := none
deriving BEq, Repr, Inhabited

namespace Contract

/-- The text of a source file. -/
def sourceText? (c : Contract) (file : String) : Option String := c.sources.lookup file

/-- The range of the sources that the instruction at `pc` comes from, with line and column when the
    text of the file is known. -/
def locateWith? (c : Contract) (map : Source.Map) (pc : Nat) : Option Source.Location :=
  (map.resolve? pc).map fun location =>
    match c.sourceText? location.file with
    | some text => { location with place := some (Source.lineColumn text location.offset) }
    | none => location

/-- Where the instruction at `pc` of the code that calls run comes from. -/
def locate? (c : Contract) (pc : Nat) : Option Source.Location :=
  c.sourceMap.bind (c.locateWith? · pc)

/-- Where the instruction at `pc` comes from, in the code that a call of this kind runs. -/
def locateIn? (c : Contract) (type : CallType) (pc : Nat) : Option Source.Location :=
  if type.isCreate then c.creationMap.bind (c.locateWith? · pc) else c.locate? pc

/-- Whether `code` begins with the creation code of the contract, which must not be empty. -/
def created (c : Contract) (code : Bytes) : Bool :=
  match c.creationCode with
  | some start => !start.isEmpty && start.isPrefixOf code
  | none => false

end Contract

end TxTrace

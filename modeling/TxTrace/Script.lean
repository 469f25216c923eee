import TxTrace.Node.Message
import TxTrace.Report

/-!
What the program does to the world, as data. A script says which action comes next and how it goes
on with the outcome; whoever runs it carries the actions out. Nothing comes after a fault.
-/

namespace TxTrace

/-- The outcome of writing a file. -/
inductive WriteResult where
  | written
  /-- There is a directory of that name. -/
  | isDirectory
  /-- The directory `parent` of the file cannot be made. -/
  | noParent (parent reason : String)
  | failed
deriving DecidableEq, Repr

/-- A script that ends with a value of type `α`, or where the machine cannot go on. -/
inductive Script (α : Type) where
  | done (value : α)
  | fault (f : Machine.Fault)
  | print (text : String) (next : Script α)
  /-- The text of a file, if it can be read. -/
  | readText (path : String) (next : Option String → Script α)
  /-- Whether there is a file of that name. -/
  | isFile (path : String) (next : Bool → Script α)
  | send (url : String) (request : Node.Request) (next : Node.Reply → Script α)
  | writeReport (path : String) (report : Report) (next : WriteResult → Script α)
  /-- The time, as a report shows it. -/
  | clock (next : String → Script α)

namespace Script

/-- One script, and then another that goes on with its value. -/
def bind {α β : Type} : Script α → (α → Script β) → Script β
  | done value, f => f value
  | fault e, _ => fault e
  | print text next, f => print text (next.bind f)
  | readText path next, f => readText path fun text => (next text).bind f
  | isFile path next, f => isFile path fun found => (next found).bind f
  | send url request next, f => send url request fun reply => (next reply).bind f
  | writeReport path report next, f => writeReport path report fun result => (next result).bind f
  | clock next, f => clock fun time => (next time).bind f

instance : Monad Script where
  pure := done
  bind := bind

@[simp]
theorem pure_bind {α β : Type} (value : α) (f : α → Script β) : (pure value : Script α) >>= f = f value :=
  rfl

theorem bind_pure {α : Type} (s : Script α) : s >>= pure = s := by
  show s.bind done = s
  induction s with
  | done | fault => rfl
  | print _ _ ih => simp [bind, ih]
  | readText _ _ ih | isFile _ _ ih | send _ _ _ ih | writeReport _ _ _ ih | clock _ ih =>
    simp [bind, ih]

/-- What the machine computes. -/
def compute {α : Type} : Except (Machine.Halt Empty) α → Script α
  | .ok value => done value
  | .error (.fault f) => fault f
  | .error (.error e) => nomatch e

end Script

end TxTrace

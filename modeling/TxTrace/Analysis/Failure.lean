import TxTrace.Analysis.Basic
import TxTrace.CallTree.Listing
import TxTrace.Machine.Excerpt

/-!
Where a transaction failed, as text: an excerpt of the source where that is known, else the place in
the source or in the code.
-/

namespace TxTrace

/-- The position in the code as it is shown: at least four digits in hex. -/
def offsetText (pc : UInt64) : String := s!"0x{Hex.padded 4 pc.toNat}"

/-- Where a step that ran in the frame `f` stands. -/
def Registry.placeText (r : Registry) (f : Frame) (s : Step) (pad : Nat) :
    Except (Machine.Halt Empty) String :=
  match r.locateStep? f s with
  | none => .ok s!"{f.label} at bytecode offset {offsetText s.pc} ({s.op})"
  | some location =>
    match (r.contractOf? f).bind (·.sourceText? location.file), location.place with
    | some text, some (line, _) => do
      let excerpt ←
        Machine.excerpt text (.ofNat location.offset) (.ofNat location.length) (.ofNat pad)
      return s!"File \"{location.file}\", line {line}, in {f.label}:\n" ++ excerpt
    | _, _ =>
      .ok s!"File \"{location.file}\", offset {location.offset}:{location.length}, in {f.label}"

/-- Where the failure began, with `pad` lines around the excerpt. It is the last step of the frame in
    which it began, or of its caller when that frame ran none. -/
def Analysis.failure? (a : Analysis) (pad : Nat) : Option (Except (Machine.Halt Empty) String) := do
  let e ← a.execution
  let f ← a.faultFrame?
  let index ← f.stop.or f.callStep
  let step ← e.steps[index]?
  let owner ← e.tree.frame? (← e.tree.owner? index)
  return a.registry.placeText owner step pad

end TxTrace

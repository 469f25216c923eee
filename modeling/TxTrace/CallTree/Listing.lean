import TxTrace.CallTree.Frame

/-!
The tree of calls as text, one frame a line.
-/

namespace TxTrace

namespace Frame

/-- The first and the last step of a frame that ran any. -/
def stepText (f : Frame) : String :=
  match f.stop with
  | some stop => s!"{f.start}:{stop}"
  | none => "-"

/-- What marks a frame that did not succeed. -/
def statusMark (f : Frame) : String :=
  if f.status.isFailure then s!"  ✗ {f.status.text}"
  else if f.status = .unknown then s!"  ? {f.status.text}"
  else ""

def line (f : Frame) : String :=
  String.ofList (List.replicate (4 * f.level) ' ') ++
    s!"{f.label} [{f.callType.mnemonic}] steps {f.stepText} gas {f.gasUsed}" ++ f.statusMark

end Frame

/-- The lines of all frames, each ended by a line feed. -/
def CallTree.listing (tree : CallTree) : String :=
  String.join (tree.frames.toList.map fun f => f.line ++ "\n")

end TxTrace

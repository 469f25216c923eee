import TxTrace.Abi.Decode
import TxTrace.Trace.Record

/-!
What looked wrong with a trace. An anomaly never ends an analysis: the value concerned is missing or
raw, and the anomaly says why.
-/

namespace TxTrace

/-- Something that looked wrong on the way from a trace to its analysis. Steps and frames are named
    by their positions. -/
inductive Anomaly where
  /-- The record at `position` was dropped. -/
  | malformedStep (position : Nat) (cause : StepError)
  /-- A step ran at another depth than the frame that was open. -/
  | depthJump (step source target : Nat)
  /-- A step had too few words on its stack. -/
  | missingOperands (step : Nat) (op : String)
  /-- Frames were open when the trace ended. -/
  | truncatedTrace (openFrames : Nat)
  /-- Steps followed after the outermost frame had ended. -/
  | trailingSteps (first count : Nat)
  | undecodedInput (frame : Nat) (cause : Abi.DecodeError)
  | undecodedOutput (frame : Nat) (cause : Abi.DecodeError)
  /-- A log did not hold what the event of its hash declares. -/
  | undecodedEvent (step : Option Nat) (event : String) (cause : Abi.DecodeError)
  | invalidTrace (cause : FormatError)

namespace Anomaly

/-- The reason given for an event that was not decoded. -/
def eventReason (event : String) (cause : Abi.DecodeError) : String := s!"{event}: {cause.message}"

def message : Anomaly → String
  | malformedStep position cause => s!"dropped malformed step {position}: {cause.message}"
  | depthJump step source target => s!"depth jumped from {source} to {target} at step {step}"
  | missingOperands step op => s!"{op} at step {step} has too few stack operands"
  | truncatedTrace openFrames => s!"trace ended with {openFrames} open frame(s)"
  | trailingSteps first count =>
    s!"{count} step(s) after the root frame closed, from step {first}"
  | undecodedInput frame cause => s!"input of frame {frame} not decoded: {cause.message}"
  | undecodedOutput frame cause => s!"output of frame {frame} not decoded: {cause.message}"
  | undecodedEvent (some step) event cause =>
    s!"event at step {step} not decoded: {eventReason event cause}"
  | undecodedEvent none event cause => s!"receipt event not decoded: {eventReason event cause}"
  | invalidTrace cause => s!"trace unusable: {cause.message}"

/-- The fields of an anomaly in JSON, after its kind. -/
def record : Anomaly → String × List (String × Json)
  | malformedStep position cause =>
    ("malformed_step", [("raw_index", .int position), ("reason", .str cause.message)])
  | depthJump step source target =>
    ("depth_jump", [("step", .int step), ("from", .int source), ("to", .int target)])
  | missingOperands step op => ("missing_operands", [("step", .int step), ("op", .str op)])
  | truncatedTrace openFrames => ("truncated_trace", [("open_frames", .int openFrames)])
  | trailingSteps first count =>
    ("trailing_steps", [("first", .int first), ("count", .int count)])
  | undecodedInput frame cause =>
    ("undecoded_input", [("frame", .int frame), ("reason", .str cause.message)])
  | undecodedOutput frame cause =>
    ("undecoded_output", [("frame", .int frame), ("reason", .str cause.message)])
  | undecodedEvent step event cause =>
    ("undecoded_event", [("step", .ofNat? step), ("reason", .str (eventReason event cause))])
  | invalidTrace cause => ("invalid_trace", [("reason", .str cause.message)])

def toJson (a : Anomaly) : Json := .object (("kind", .str a.record.1) :: a.record.2)

end Anomaly

end TxTrace

import TxTrace.Abi.Event
import TxTrace.Anomaly
import TxTrace.Registry.Basic

/-!
Logs as events. A log is read against the event that its first topic names, in the interface of the
code that emitted it or else in any other; a log for which there is none, or that does not hold what
the event declares, stands as an event of raw topics and data.
-/

namespace TxTrace

namespace Log

/-- The parameter that a topic is. -/
def topicParam (index : Nat) (topic : Word) : Abi.EventArgument :=
  ⟨⟨s!"topic{index}", .word, .fixedBytes topic.toBytes⟩, true, false⟩

/-- The log as an event of raw topics and data. -/
def undecoded (log : Log) : Abi.DecodedEvent where
  name := "unknown"
  address := some log.address
  params := log.topics.mapIdx topicParam ++ [⟨⟨"data", .bytes, .bytes log.data⟩, false, false⟩]

end Log

namespace Registry

/-- The event that the first topic of a log names, when the code at `code` emitted it. -/
def eventOf? (r : Registry) (code : Address) (log : Log) : Option Abi.Entry := do
  let topic ← log.topics.head?
  ((r.find? code).bind (·.abi.eventByTopic topic)).or ((r.findEvent? topic).map (·.2))

/-- The event that a log is, when the code at `code` emitted it, and what did not decode. -/
def event (r : Registry) (code : Address) (log : Log) : Abi.DecodedEvent × List Anomaly :=
  match r.eventOf? code log with
  | none => (log.undecoded, [])
  | some entry =>
    match Abi.decodeEvent log.topics log.data entry with
    | .ok event => ({ event with address := some log.address }, [])
    | .error cause => (log.undecoded, [.undecodedEvent log.step entry.name cause])

/-- The events of the logs that the frames of a tree emitted, in the order of the steps. -/
def treeEvents (r : Registry) (tree : CallTree) : List (Abi.DecodedEvent × List Anomaly) :=
  let logs := tree.frames.toList.flatMap fun f => f.logs.toList.map (f, ·)
  let logs := logs.mergeSort fun a b => a.2.step.getD 0 ≤ b.2.step.getD 0
  logs.map fun (f, log) => r.event (f.callee.getD log.address) log

/-- The events of the logs that a receipt lists, in their order. -/
def receiptEvents (r : Registry) (tx : Transaction) : List (Abi.DecodedEvent × List Anomaly) :=
  ((tx.receipt.map (·.logs)).getD []).map fun log => r.event log.address log

end Registry

end TxTrace

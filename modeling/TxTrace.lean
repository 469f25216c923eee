import TxTrace.Machine.Encode
import TxTrace.Main
import TxTrace.Proofs.CallTree.Arrangement
import TxTrace.Proofs.CallTree.Move
import TxTrace.Proofs.CallTree.Nesting
import TxTrace.Proofs.CallTree.Rebuild
import TxTrace.Proofs.CallTree.Range
import TxTrace.Proofs.CallTree.Coherent
import TxTrace.Proofs.CallTree.WellFormed
import TxTrace.Proofs.CallTree.Emitter
import TxTrace.Word.Lemmas
import TxTrace.Proofs.Abi.Layout
import TxTrace.Proofs.Text.Utf8
import TxTrace.Proofs.Abi.RoundTrip
import TxTrace.Proofs.Source.Expansion
import TxTrace.Proofs.Source.Excerpt
import TxTrace.Proofs.CallTree.Reached
import TxTrace.Proofs.CallTree.Standing
import TxTrace.Proofs.CallTree.DepthJump
import TxTrace.Proofs.CallTree.LastStep
import TxTrace.Proofs.CallTree.Truncation
import TxTrace.Proofs.CallTree.CallSite
import TxTrace.Proofs.CallTree.Fault
import TxTrace.Proofs.CallTree.Context
import TxTrace.Proofs.CallTree.Creation
import TxTrace.Proofs.Analysis.Consistent
import TxTrace.Proofs.Abi.Extension
import TxTrace.Proofs.Trace.Memory
import TxTrace.Proofs.Trace.Envelope
import TxTrace.Proofs.Trace.Records
import TxTrace.Proofs.CallTree.Emission
import TxTrace.Proofs.CallTree.Called
import TxTrace.Proofs.Analysis.Events
import TxTrace.Proofs.Analysis.Arguments
import TxTrace.Proofs.Abi.LoggedEvent
import TxTrace.Proofs.Registry.Lookup
import TxTrace.Proofs.Registry.Unlinked
import TxTrace.Proofs.Revert
import TxTrace.Proofs.Analysis.Deployment
import TxTrace.Proofs.Abi.Decoded
import TxTrace.Proofs.Abi.Uncounted
import TxTrace.Proofs.Abi.Reencode
import TxTrace.Proofs.Machine.Decode
import TxTrace.Proofs.Abi.Dimensions
import TxTrace.Proofs.Machine.Encode
import TxTrace.Proofs.Abi.Declaration
import TxTrace.Proofs.CallTree.Entrance
import TxTrace.Proofs.CallTree.Operands
import TxTrace.Proofs.CallTree.Unknown
import TxTrace.Proofs.CallTree.Output
import TxTrace.Proofs.CallTree.Payload
import TxTrace.Proofs.Analysis.Decoding
import TxTrace.Proofs.Analysis.Dropped
import TxTrace.Proofs.Gas.Profile
import TxTrace.Proofs.Gas.Conservation
import TxTrace.Proofs.Machine.Gas
import TxTrace.Proofs.Machine.Excerpt
import TxTrace.Proofs.Abi.JsonForm
import TxTrace.Proofs.Registry.Loading
import TxTrace.Proofs.Machine.Align
import TxTrace.Proofs.CallTree.OpenFrames
import TxTrace.Proofs.Abi.Head
import TxTrace.Proofs.Abi.Position
import TxTrace.Proofs.Source.Place
import TxTrace.Proofs.Quantity

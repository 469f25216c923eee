import TxTrace.CallTree.Frame
import TxTrace.Keyed
import TxTrace.Registry.Contract

/-!
The known contracts by address.
-/

namespace TxTrace

/-- The known contracts, sorted by address. Where several could answer, the first one does. -/
structure Registry where
  entries : List (Address × Contract) := []
  sorted : Keyed.Sorted entries := by exact List.Pairwise.nil
deriving Repr

namespace Registry

instance : BEq Registry := ⟨fun a b => a.entries == b.entries⟩

def empty : Registry := {}

/-- The known contracts in the order of their addresses. -/
def contracts (r : Registry) : List Contract := r.entries.map (·.2)

/-- How many contracts are known. -/
def size (r : Registry) : Nat := r.entries.length

/-- The contract at an address. -/
def find? (r : Registry) (address : Address) : Option Contract := Keyed.find? r.entries address

/-- The registry with `contract` at an address, in place of the one that was there. -/
def insert (r : Registry) (address : Address) (contract : Contract) : Registry :=
  ⟨Keyed.insert address contract r.entries, r.sorted.insert address contract⟩

/-- The registry without the contract at an address. -/
def erase (r : Registry) (address : Address) : Registry :=
  ⟨Keyed.erase address r.entries, r.sorted.erase address⟩

/-- After a registration an address has the new contract, and every other the one it had. -/
theorem find?_insert (r : Registry) (address other : Address) (contract : Contract) :
    (r.insert address contract).find? other =
      if address = other then some contract else r.find? other :=
  Keyed.find?_insert r.entries address other contract

/-- The first contract that has such an event, and the event. -/
def findEvent? (r : Registry) (topic : Word) : Option (Contract × Abi.Entry) :=
  r.contracts.findSome? fun c => (c.abi.eventByTopic topic).map (c, ·)

/-- The first contract that has such an error, and the error. -/
def findError? (r : Registry) (selector : Selector) : Option (Contract × Abi.Entry) :=
  r.contracts.findSome? fun c => (c.abi.errorBySelector selector).map (c, ·)

/-- The first contract that `code` creates. -/
def findCreated? (r : Registry) (code : Bytes) : Option Contract := r.contracts.find? (·.created code)

/-- The contract whose code a frame runs: the one at its address, else for a creation the one that
    its input creates. -/
def contractOf? (r : Registry) (f : Frame) : Option Contract :=
  (f.callee.bind r.find?).or (if f.callType.isCreate then r.findCreated? f.input else none)

end Registry

end TxTrace

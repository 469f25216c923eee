import TxTrace.Hash.Keccak
import TxTrace.Hex
import TxTrace.Text.Utf8

/-!
The mixed-case text of an address, which carries a checksum: a letter is upper case when the hash
of the lower-case digits has at least 8 in the same place.
-/

namespace TxTrace.Address

/-- A digit in the case that the hash digit `mark` asks for. -/
def markCase (digit mark : Char) : Char :=
  if 8 ≤ (Hex.value? mark).getD 0 then digit.toUpper else digit

/-- The text of an address with its checksum. -/
def checksum (a : Address) : String :=
  let digits := Hex.digits a.toBytes
  let marks := Hex.digits (Keccak.hash (Text.utf8 (String.ofList digits))).toBytes
  String.ofList ('0' :: 'x' :: List.zipWith markCase digits marks)

end TxTrace.Address

/-!
The range of 64-bit numbers. Sizes, offsets, positions in code and amounts of gas are such numbers.
-/

namespace TxTrace

/-- The largest number of 64 bits. -/
abbrev max64 : Nat := 0xFFFFFFFFFFFFFFFF

end TxTrace

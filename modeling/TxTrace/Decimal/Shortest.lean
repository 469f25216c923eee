/-!
The shortest decimal that reads back as a given double: of all decimals closer to it than to any
other double, one with the fewest digits, and among those the nearest.
-/

namespace TxTrace.Decimal

/-- A positive binary number `mantissa * 2 ^ exponent` as a double holds it. -/
structure Binary where
  mantissa : Nat
  exponent : Int
  /-- Whether the double below is only half as far away as the one above. -/
  closeBelow : Bool
deriving DecidableEq, Repr

/-- The 11 bits of a double that tell its exponent. -/
def exponentField (bits : UInt64) : Nat := (bits >>> 52 &&& 0x7FF).toNat

/-- The last 52 bits of a double. -/
def fractionField (bits : UInt64) : Nat := (bits &&& 0xFFFFFFFFFFFFF).toNat

/-- The binary form of the double with the bits `bits`, its sign left out. -/
def Binary.ofBits (bits : UInt64) : Binary :=
  let fraction := fractionField bits
  let field := exponentField bits
  if field = 0 then ⟨fraction, -1074, false⟩
  else ⟨0x10000000000000 + fraction, (field : Int) - 1075, fraction == 0 && field != 1⟩

/-- A positive decimal number `digits * 10 ^ exponent`. -/
structure Scientific where
  digits : Nat
  exponent : Int
deriving DecidableEq, Repr

/-- The numerator and denominator of `n * base ^ e`. -/
def scale (n base : Nat) (e : Int) : Nat × Nat :=
  (n * Nat.pow base e.toNat, Nat.pow base (-e).toNat)

/-- Whether `a / b` comes before `c / d`, or, with `orEqual`, is the same number. -/
def before (orEqual : Bool) (a b : Nat × Nat) : Bool :=
  if orEqual then a.1 * b.2 ≤ b.1 * a.2 else a.1 * b.2 < b.1 * a.2

/-- The decimals that read back as `x` lie between these two numbers, which belong to them exactly
    when the mantissa is even. -/
def Binary.bounds (x : Binary) : (Nat × Nat) × (Nat × Nat) :=
  let below := if x.closeBelow then 1 else 2
  (scale (4 * x.mantissa - below) 2 (x.exponent - 2), scale (4 * x.mantissa + 2) 2 (x.exponent - 2))

/-- Whether a decimal reads back as `x`. -/
def Binary.reads (x : Binary) (d : Scientific) : Bool :=
  let even := x.mantissa % 2 == 0
  let value := scale d.digits 10 d.exponent
  before even x.bounds.1 value && before even value x.bounds.2

/-- The exponent of the leading decimal digit of a positive number `n / d`. -/
def leading (n d : Nat) : Int :=
  let guess : Int := (Nat.toDigits 10 n).length - (Nat.toDigits 10 d).length
  if before true (scale 1 10 guess) (n, d) then guess else guess - 1

/-- The decimals on either side of `x` whose last digit has the place `place`, the nearer first, a
    tie going to the even digit. -/
def Binary.neighbours (x : Binary) (place : Int) : List Scientific :=
  let (n, d) := scale x.mantissa 2 x.exponent
  let (p, q) := scale 1 10 place
  let floor := n * q / (d * p)
  let rest := n * q % (d * p)
  let below : Scientific := ⟨floor, place⟩
  let above : Scientific := ⟨floor + 1, place⟩
  if 2 * rest < d * p ∨ (2 * rest = d * p ∧ floor % 2 = 0) then [below, above] else [above, below]

/-- The first of the next `tries` grids, from the one whose last digit has the place `place` to ever
    finer ones, that has a decimal reading back as `x`. -/
def Binary.search (x : Binary) : (tries : Nat) → (place : Int) → Option Scientific
  | 0, _ => none
  | tries + 1, place =>
    match (x.neighbours place).find? x.reads with
    | some d => some d
    | none => x.search tries (place - 1)

/-- The decimal without trailing zeros. -/
def Scientific.trim (d : Scientific) : Scientific :=
  let zeros := ((Nat.toDigits 10 d.digits).reverse.takeWhile (· == '0')).length
  ⟨d.digits / Nat.pow 10 zeros, d.exponent + zeros⟩

/-- The shortest decimal that reads back as the positive number `x`: seventeen digits always do. -/
def Binary.shortest (x : Binary) : Scientific :=
  let (n, d) := scale x.mantissa 2 x.exponent
  ((x.search 17 (leading n d)).getD ⟨x.mantissa, 0⟩).trim

end TxTrace.Decimal

import TxTrace.Json.Written
import TxTrace.Size

/-!
The value of a JSON number. Integers of 64 bits are exact. Any other number is a double, taken as
the first digits, as many as 64 bits hold, scaled by one power of ten at a time; where that power
is exact, the double is the nearest one. A number beyond all doubles is well formed, but has no
value.
-/

namespace TxTrace.Json

/-- The digits of a number read so far: as a natural number of 64 bits, with the power of ten it is
    to be scaled by. Once `full`, no more digits fit. -/
structure Significand where
  digits : Nat
  exponent : Int
  full : Bool
deriving DecidableEq, Repr

namespace Significand

/-- One more digit before the point. A digit that no longer fits only counts as a place. -/
def pushWhole (s : Significand) (d : Nat) : Significand :=
  if s.full ∨ max64 < s.digits * 10 + d then ⟨s.digits, s.exponent + 1, true⟩
  else ⟨s.digits * 10 + d, s.exponent, false⟩

/-- One more digit after the point. From the first that does not fit on, all are left out. -/
def pushFraction (s : Significand) (d : Nat) : Significand :=
  if s.full ∨ max64 < s.digits * 10 + d then ⟨s.digits, s.exponent, true⟩
  else ⟨s.digits * 10 + d, s.exponent - 1, false⟩

end Significand

/-- The double `10 ^ e`. -/
def powerOfTen (e : Nat) : Float := Float.ofScientific 1 false e

/-- The double `x / 10 ^ e`, divided by the largest power of ten until the rest of it is one. -/
def scaleDown (x : Float) (e : Nat) : Float :=
  if e ≤ 308 then x / powerOfTen e
  else if x == 0 then x
  else scaleDown (x / powerOfTen 308) (e - 308)
termination_by e
decreasing_by omega

/-- The double `n * 10 ^ e`, for a natural number `n` of 64 bits, when it is finite. -/
def scaled? (n : Nat) (e : Int) : Option Float :=
  let x := (UInt64.ofNat n).toFloat
  if e < 0 then some (scaleDown x (-e).toNat)
  else if e ≤ 308 then
    let y := x * powerOfTen e.toNat
    if y.isInf then none else some y
  else if n = 0 then some 0
  else none

/-- A run of digits at the front of a text, as values, and what follows it. -/
def spanDigits (cs : List Char) : List Nat × List Char :=
  ((cs.takeWhile Char.isDigit).map fun c => c.toNat - 48, cs.dropWhile Char.isDigit)

/-- The largest exponent that is read as it is written. -/
def maxExponent : Nat := 0x7FFFFFFF

/-- The exponent that `e` or `E` and a signed run of digits denote, within 32 bits. -/
def exponent? (cs : List Char) : Option Int := do
  let (negative, cs) :=
    match cs with
    | '+' :: cs => (false, cs)
    | '-' :: cs => (true, cs)
    | cs => (false, cs)
  let (digits, rest) := spanDigits cs
  if digits.isEmpty ∨ !rest.isEmpty then none
  else
    let n : Nat := digits.foldl (fun n d => min (n * 10 + d) (maxExponent + 1)) 0
    some (if negative then -(n : Int) else n)

/-- The double that a significand and an exponent as written denote. -/
def double (negative : Bool) (s : Significand) (exponent : Int) : Written :=
  let magnitude :=
    if exponent.natAbs ≤ maxExponent then scaled? s.digits (s.exponent + exponent)
    else if 0 < exponent ∧ s.digits ≠ 0 then none
    else some 0
  match magnitude with
  | some x => .value (.float (if negative then -x else x))
  | none => .tooLarge

/-- A number without its sign. -/
def unsigned? (negative : Bool) (cs : List Char) : Option Written := do
  let (whole, rest) := spanDigits cs
  if whole.isEmpty ∨ (whole.head? = some 0 ∧ 1 < whole.length) then none
  let s := whole.foldl Significand.pushWhole ⟨0, 0, false⟩
  match rest with
  | [] =>
    if s.full then return double negative s 0
    else if !negative then return .value (.int s.digits)
    else if 0 < s.digits ∧ s.digits ≤ max64 / 2 + 1 then return .value (.int (-s.digits))
    else return double negative s 0
  | '.' :: rest =>
    let (fraction, rest) := spanDigits rest
    if fraction.isEmpty then none
    let s := fraction.foldl Significand.pushFraction { s with full := false }
    match rest with
    | [] => return double negative s 0
    | e :: rest => if e = 'e' ∨ e = 'E' then return double negative s (← exponent? rest) else none
  | e :: rest => if e = 'e' ∨ e = 'E' then return double negative s (← exponent? rest) else none

/-- A number as written: an optional minus, a whole part without leading zeros, and optionally a
    fraction and an exponent. -/
def number? : List Char → Option Written
  | '-' :: cs => unsigned? true cs
  | cs => unsigned? false cs

end TxTrace.Json

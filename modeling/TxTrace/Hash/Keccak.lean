import TxTrace.Word

/-!
Keccak-256: the sponge over the 1600-bit Keccak permutation with a rate of 136 bytes and the
padding whose first byte is 1.
-/

namespace TxTrace.Keccak

/-- The 25 lanes of the state; lane `(x, y)` stands at `x + 5 * y`. -/
abbrev State := Vector UInt64 25

/-- The lane `(x, y)`, both taken modulo five. -/
def lane (a : State) (x y : Nat) : UInt64 := a[x % 5 + 5 * (y % 5)]

/-- The state whose lane `(x, y)` is `f x y`. -/
def ofLanes (f : Nat → Nat → UInt64) : State := Vector.ofFn fun i => f (i.val % 5) (i.val / 5)

/-- A lane turned left by `k` bits. -/
def rotate (w : UInt64) (k : Nat) : UInt64 :=
  if k % 64 = 0 then w else w <<< UInt64.ofNat (k % 64) ||| w >>> UInt64.ofNat (64 - k % 64)

/-- How far lane `(x, y)` is turned: the number at `x + 5 * y`. -/
def offsets : Vector Nat 25 :=
  #v[0, 1, 62, 28, 27, 36, 44, 6, 55, 20, 3, 10, 43, 25, 39, 41, 45, 15, 21, 8, 18, 2, 61, 56, 14]

/-- The constants of the 24 rounds. -/
def roundConstants : List UInt64 := [
  0x0000000000000001, 0x0000000000008082, 0x800000000000808A, 0x8000000080008000,
  0x000000000000808B, 0x0000000080000001, 0x8000000080008081, 0x8000000000008009,
  0x000000000000008A, 0x0000000000000088, 0x0000000080008009, 0x000000008000000A,
  0x000000008000808B, 0x800000000000008B, 0x8000000000008089, 0x8000000000008003,
  0x8000000000008002, 0x8000000000000080, 0x000000000000800A, 0x800000008000000A,
  0x8000000080008081, 0x8000000000008080, 0x0000000080000001, 0x8000000080008008]

/-- Each column is mixed with its two neighbours' parities. -/
def theta (a : State) : State :=
  let parity : Vector UInt64 5 := Vector.ofFn fun x =>
    lane a x 0 ^^^ lane a x 1 ^^^ lane a x 2 ^^^ lane a x 3 ^^^ lane a x 4
  let change : Vector UInt64 5 := Vector.ofFn fun x =>
    parity[(x.val + 4) % 5] ^^^ rotate parity[(x.val + 1) % 5] 1
  ofLanes fun x y => lane a x y ^^^ change[x % 5]

/-- Every lane is turned by its offset and moved to the place `(y, 2 * x + 3 * y)`. -/
def rhoPi (a : State) : State :=
  ofLanes fun x y =>
    let source := (x + 3 * y) % 5
    rotate (lane a source x) offsets[source + 5 * (x % 5)]

/-- Each lane takes in the next two of its row. -/
def chi (a : State) : State :=
  ofLanes fun x y => lane a x y ^^^ (~~~lane a (x + 1) y &&& lane a (x + 2) y)

def round (a : State) (constant : UInt64) : State :=
  let b := chi (rhoPi (theta a))
  b.set 0 (b[0] ^^^ constant)

def permute (a : State) : State := roundConstants.foldl round a

/-- Bytes taken in or given out between two permutations. -/
def rate : Nat := 136

/-- The number whose little-endian digits to base 256 are the bytes of `bs`. -/
def littleEndian (bs : Bytes) : UInt64 :=
  bs.foldr (fun b n => n <<< 8 ||| b.toUInt64) 0

/-- The eight bytes of a lane, least significant first. -/
def laneBytes (w : UInt64) : Bytes :=
  (List.range 8).map fun i => (w >>> UInt64.ofNat (8 * i)).toUInt8

/-- A block of bytes added to the front lanes of the state. -/
def absorb (a : State) (block : Bytes) : State :=
  let words := (List.range 17).map fun i => littleEndian ((block.drop (8 * i)).take 8)
  Vector.ofFn fun i => a[i] ^^^ words.getD i 0

/-- What follows `bs` up to a multiple of the rate: 1, zeros, and 0x80, the two added when they
    meet. -/
def pad (bs : Bytes) : Bytes :=
  let missing := rate - bs.length % rate
  if missing = 1 then bs ++ [0x81] else bs ++ 1 :: List.replicate (missing - 2) 0 ++ [0x80]

/-- The state after `blocks` blocks at the front of `bs`. -/
def absorbAll (a : State) : (blocks : Nat) → (bs : Bytes) → State
  | 0, _ => a
  | blocks + 1, bs => absorbAll (permute (absorb a (bs.take rate))) blocks (bs.drop rate)

/-- The Keccak-256 hash of a byte string. -/
def hash (bs : Bytes) : Word :=
  let padded := pad bs
  let a := absorbAll (Vector.replicate 25 0) (padded.length / rate) padded
  Word.ofBytes ((a.toList.take 4).flatMap laneBytes)

end TxTrace.Keccak

import ProofOfWork.Line

/-!
# ProofOfWork.Cryptonight.IntegerStep — division and square root of variant 2

A step mixes the quotient and root of the step before it into one line and derives new ones from
another.  The root of `n` is `R` with `(R + 2 ^ 33) ^ 2 ≤ 4 * (2 ^ 64 + n) < (R + 1 + 2 ^ 33) ^ 2`:
twice the square root of `2 ^ 64 + n`, rounded down, less its least value `2 ^ 33`.  It is found in
whole numbers, as twice a rounded-down square root that is then corrected by the half it lost.
-/

namespace ProofOfWork.Cryptonight

structure IntegerStep where
  division : UInt64
  root : UInt64
deriving DecidableEq, Repr

namespace IntegerStep

/-! ### The root -/

/-- Settles the bits below `t` of the root `s` of `2 ^ 64 + n` less `2 ^ 32`, highest first;
`left` is what `n` has over `s * (s + 2 ^ 33)`. -/
def rootBits : (t : Nat) → (s left : UInt64) → UInt64
  | 0, s, _ => s
  | t + 1, s, left =>
    let bit := 1 <<< t.toUInt64
    let cost := (s <<< 1 + bit + 0x200000000) <<< t.toUInt64
    if cost ≤ left then rootBits t (s + bit) (left - cost) else rootBits t s left

/-- Twice the rounded-down square root of `2 ^ 64 + n`, less `2 ^ 33`. -/
def rootEstimate (n : UInt64) : UInt64 := rootBits 31 0 n <<< 1

/-- The root of `n`, from an estimate that is off by one at most. -/
def correctRoot (n e : UInt64) : UInt64 :=
  let s := e >>> 1
  let b := e &&& 1
  let square := s * (s + b) + e <<< 32
  let r := if n < square + b then e - 1 else e
  if square + 0x100000000 < n - s then r + 1 else r

def integerRoot (n : UInt64) : UInt64 := correctRoot n (rootEstimate n)

/-! ### The step -/

/-- Both end bits are set, so that the divisor is odd and never small. -/
def divisor (c : Line) (root : UInt64) : UInt64 :=
  ((c.lo + (root <<< 1).toUInt32.toUInt64).toUInt32 ||| 0x80000001).toUInt64

/-- `c2` with the last results mixed in, and the results that `c1` gives. -/
def step (m : IntegerStep) (c2 c1 : Line) : Line × IntegerStep :=
  let d := divisor c1 m.root
  let division := (c1.hi / d).toUInt32.toUInt64 + (c1.hi % d) <<< 32
  (⟨c2.lo ^^^ m.division ^^^ m.root <<< 32, c2.hi⟩,
    ⟨division, integerRoot (c1.lo + division)⟩)

end IntegerStep

end ProofOfWork.Cryptonight

import ProofOfWork.Bytes

/-!
# ProofOfWork.Line — sixteen-byte lines

A line is held as its two little-endian halves and seen as sixteen bytes or as four 32-bit words.
-/

namespace ProofOfWork

structure Line where
  lo : UInt64
  hi : UInt64
deriving DecidableEq, Repr, Inhabited

namespace Line

def zero : Line := ⟨0, 0⟩

@[inline] def xor (x y : Line) : Line := ⟨x.lo ^^^ y.lo, x.hi ^^^ y.hi⟩

/-- The halves are summed apart: no carry passes from one to the other. -/
@[inline] def add (x y : Line) : Line := ⟨x.lo + y.lo, x.hi + y.hi⟩

instance : XorOp Line := ⟨xor⟩

instance : Add Line := ⟨add⟩

/-! ### Bytes -/

def ofBytes (b : Vector UInt8 16) : Line :=
  ⟨leWord64 (slice b 0 8 (by omega)), leWord64 (slice b 8 8 (by omega))⟩

def bytes (x : Line) : Vector UInt8 16 := leBytes64 x.lo ++ leBytes64 x.hi

/-- The line a message starts with. -/
def ofMessage? (b : Bytes) : Option Line :=
  if h : 16 ≤ b.size then some (ofBytes (slice b.toVector 0 16 (by omega))) else none

/-! ### Words -/

@[inline] def word0 (x : Line) : UInt32 := x.lo.toUInt32

@[inline] def word1 (x : Line) : UInt32 := (x.lo >>> 32).toUInt32

@[inline] def word2 (x : Line) : UInt32 := x.hi.toUInt32

@[inline] def word3 (x : Line) : UInt32 := (x.hi >>> 32).toUInt32

@[inline] def ofWords (a b c d : UInt32) : Line :=
  ⟨a.toUInt64 ||| b.toUInt64 <<< 32, c.toUInt64 ||| d.toUInt64 <<< 32⟩

end Line

end ProofOfWork

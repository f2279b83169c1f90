import ProofOfWork.Lanes.LaneUnit

/-!
# ProofOfWork.Lanes.Backend — the lane units there are

One word alone; two words packed into one of 64 bits; any number of words side by side; and the
vector registers of four and eight words, whose rotation is made of two shifts.
-/

namespace ProofOfWork.Lanes

/-! ### One word -/

def scalarUnit : LaneUnit where
  Group := UInt32
  way := 1
  name := "Scalar (1-way)"
  guarded := false
  ofLanes v := v[0]
  toLanes x := #v[x]
  broadcast v := v
  add x y := x + y
  xor x y := x ^^^ y
  or x y := x ||| y
  and x y := x &&& y
  andNot x y := ~~~x &&& y
  shr n x := x >>> n.val.toUInt32
  shl n x := x <<< n.val.toUInt32
  rol n x := rotl32 x n.val.toUInt32

/-! ### Two packed words -/

namespace Packed

def pack (low high : UInt32) : UInt64 := low.toUInt64 ||| high.toUInt64 <<< 32

def low (x : UInt64) : UInt32 := x.toUInt32

def high (x : UInt64) : UInt32 := (x >>> 32).toUInt32

/-- The top bit of either word. -/
def topBits : UInt64 := 0x8000000080000000

/-- The top bits are added apart, so that no carry leaves the lower word. -/
def add (x y : UInt64) : UInt64 :=
  ((x &&& ~~~topBits) + (y &&& ~~~topBits)) ^^^ ((x ^^^ y) &&& topBits)

def both (m : UInt32) : UInt64 := pack m m

/-- What crosses from one word into the other is masked away. -/
def shr (n : Fin 32) (x : UInt64) : UInt64 :=
  x >>> n.val.toUInt64 &&& both (0xffffffff >>> n.val.toUInt32)

def shl (n : Fin 32) (x : UInt64) : UInt64 :=
  x <<< n.val.toUInt64 &&& both (0xffffffff <<< n.val.toUInt32)

end Packed

def packedUnit : LaneUnit where
  Group := UInt64
  way := 2
  name := "SWAR (2-way)"
  guarded := true
  ofLanes v := Packed.pack v[0] v[1]
  toLanes x := #v[Packed.low x, Packed.high x]
  broadcast := Packed.both
  add := Packed.add
  xor x y := x ^^^ y
  or x y := x ||| y
  and x y := x &&& y
  andNot x y := ~~~x &&& y
  shr := Packed.shr
  shl := Packed.shl
  rol n x := Packed.pack (rotl32 (Packed.low x) n.val.toUInt32) (rotl32 (Packed.high x) n.val.toUInt32)

/-! ### Words side by side -/

def softwareUnit (way : Nat) : LaneUnit where
  Group := Vector UInt32 way
  way := way
  name := "Software (N-way)"
  guarded := true
  ofLanes v := v
  toLanes x := x
  broadcast v := Vector.replicate way v
  add := Vector.zipWith (· + ·)
  xor := Vector.zipWith (· ^^^ ·)
  or := Vector.zipWith (· ||| ·)
  and := Vector.zipWith (· &&& ·)
  andNot := Vector.zipWith fun a b => ~~~a &&& b
  shr n x := x.map (· >>> n.val.toUInt32)
  shl n x := x.map (· <<< n.val.toUInt32)
  rol n x := x.map (rotl32 · n.val.toUInt32)

/-! ### Vector registers -/

/-- A register shift by the word's width or more leaves zero. -/
def shiftUp (count : Nat) (a : UInt32) : UInt32 := if count < 32 then a <<< count.toUInt32 else 0

def shiftDown (count : Nat) (a : UInt32) : UInt32 := if count < 32 then a >>> count.toUInt32 else 0

def registerUnit (way : Nat) (name : String) : LaneUnit where
  Group := Vector UInt32 way
  way := way
  name := name
  guarded := true
  ofLanes v := v
  toLanes x := x
  broadcast v := Vector.replicate way v
  add := Vector.zipWith (· + ·)
  xor := Vector.zipWith (· ^^^ ·)
  or := Vector.zipWith (· ||| ·)
  and := Vector.zipWith (· &&& ·)
  andNot := Vector.zipWith fun a b => ~~~a &&& b
  shr n x := x.map (shiftDown n)
  shl n x := x.map (shiftUp n)
  rol n x := Vector.zipWith (· ||| ·) (x.map (shiftUp n)) (x.map (shiftDown (32 - n)))

/-! ### All of them -/

inductive Backend
  | scalar
  | swar2
  | soft (way : Nat) (pos : 0 < way)
  | sse2
  | avx2
deriving DecidableEq, Repr

def Backend.unit : Backend → LaneUnit
  | scalar => scalarUnit
  | swar2 => packedUnit
  | soft way _ => softwareUnit way
  | sse2 => registerUnit 4 "SSE2 (4-way)"
  | avx2 => registerUnit 8 "AVX2 (8-way)"

end ProofOfWork.Lanes

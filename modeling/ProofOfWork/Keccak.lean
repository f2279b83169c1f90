import ProofOfWork.Bytes

/-!
# ProofOfWork.Keccak — the Keccak-f[1600] permutation and its sponge at rate 136

The state is 25 lanes of 64 bits; lane `x + 5 * y` stands in column `x` and row `y`, and the lanes'
little-endian bytes in that order are the 200 state bytes.  The sponge pads with a byte `0x01`,
zeros and a final bit `0x80`, and its result is the whole state.
-/

namespace ProofOfWork.Keccak

abbrev State := Vector UInt64 25

/-! ### The permutation -/

/-- How far each lane is turned, by its place in the state. -/
def offsets : Vector UInt64 25 :=
  #v[ 0,  1, 62, 28, 27,
     36, 44,  6, 55, 20,
      3, 10, 43, 25, 39,
     41, 45, 15, 21,  8,
     18,  2, 61, 56, 14]

def roundConstants : Vector UInt64 24 :=
  #v[0x0000000000000001, 0x0000000000008082, 0x800000000000808a, 0x8000000080008000,
     0x000000000000808b, 0x0000000080000001, 0x8000000080008081, 0x8000000000008009,
     0x000000000000008a, 0x0000000000000088, 0x0000000080008009, 0x000000008000000a,
     0x000000008000808b, 0x800000000000008b, 0x8000000000008089, 0x8000000000008003,
     0x8000000000008002, 0x8000000000000080, 0x000000000000800a, 0x800000008000000a,
     0x8000000080008081, 0x8000000000008080, 0x0000000080000001, 0x8000000080008008]

/-- The parity of column `x`. -/
def parity (a : State) (x : Fin 5) : UInt64 :=
  a[x.val] ^^^ a[x.val + 5] ^^^ a[x.val + 10] ^^^ a[x.val + 15] ^^^ a[x.val + 20]

/-- Every lane takes in the parities of the two columns beside its own. -/
def theta (a : State) : State :=
  let p := Vector.ofFn (parity a)
  let d := Vector.ofFn fun x : Fin 5 =>
    p[(x.val + 4) % 5] ^^^ rotl64 (p[(x.val + 1) % 5]) 1
  Vector.ofFn fun i => a[i] ^^^ d[i.val % 5]

/-- Every lane is turned, then moved: the lane in column `x` and row `y` comes from row `x` of
column `x + 3 * y`. -/
def rhoPi (a : State) : State :=
  Vector.ofFn fun i =>
    let x := i.val % 5
    let y := i.val / 5
    let j := (x + 3 * y) % 5 + 5 * x
    rotl64 (a[j]) (offsets[j])

/-- Along each row, a lane flips where the next is clear and the one after it set. -/
def chi (a : State) : State :=
  Vector.ofFn fun i =>
    let x := i.val % 5
    let y := i.val / 5
    a[i] ^^^ (~~~(a[(x + 1) % 5 + 5 * y]) &&& a[(x + 2) % 5 + 5 * y])

def round (a : State) (rc : UInt64) : State :=
  let b := chi (rhoPi (theta a))
  b.set 0 (b[0] ^^^ rc)

def permute (a : State) : State := roundConstants.foldl round a

/-! ### Bytes -/

def ofBytes (b : Vector UInt8 200) : State := words64 (n := 25) b

def toBytes (a : State) : Vector UInt8 200 := bytesOfWords64 a

/-! ### The sponge -/

/-- The words of a block are added to the first 17 lanes. -/
def absorb (a : State) (block : Vector UInt8 136) : State :=
  let w := words64 (n := 17) block
  permute (Vector.ofFn fun i => if _ : i.val < 17 then a[i] ^^^ w[i.val] else a[i])

/-- The block that carries the end of a message and its padding.  Where both fall on the last byte
it is `0x81`. -/
def lastBlock (rest : Bytes) : Vector UInt8 136 :=
  let b := rest.marked 136 0x01
  b.set 135 (b[135] ||| 0x80)

/-- The state after a whole message. -/
def hash (message : Bytes) : State :=
  let a := (message.blocks 136).foldl absorb (Vector.replicate 25 0)
  absorb a (lastBlock (message.rest 136))

end ProofOfWork.Keccak

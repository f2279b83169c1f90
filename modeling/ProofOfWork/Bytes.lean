import ProofOfWork.Index

/-!
# ProofOfWork.Bytes — byte strings, words and blocks

A message is an array of bytes, a block or a digest a vector of them.  Words are read and written
in either byte order; a message splits into its full blocks and a shorter rest.
-/

namespace ProofOfWork

abbrev Bytes := Array UInt8

abbrev Digest := Vector UInt8 32

/-! ### Words -/

/-- `rotl x n` for `n < 32`; a shift by 32 is a shift by 0, so `rotl x 0 = x`. -/
@[inline] def rotl32 (x n : UInt32) : UInt32 := x <<< n ||| x >>> (32 - n)

@[inline] def rotr32 (x n : UInt32) : UInt32 := x >>> n ||| x <<< (32 - n)

@[inline] def rotl64 (x n : UInt64) : UInt64 := x <<< n ||| x >>> (64 - n)

/-- The word of four bytes, the first one lowest. -/
def leWord32 (b : Vector UInt8 4) : UInt32 :=
  b[0].toUInt32 ||| b[1].toUInt32 <<< 8 ||| b[2].toUInt32 <<< 16 ||| b[3].toUInt32 <<< 24

/-- The word of four bytes, the first one highest. -/
def beWord32 (b : Vector UInt8 4) : UInt32 :=
  b[3].toUInt32 ||| b[2].toUInt32 <<< 8 ||| b[1].toUInt32 <<< 16 ||| b[0].toUInt32 <<< 24

def leBytes32 (x : UInt32) : Vector UInt8 4 :=
  #v[x.toUInt8, (x >>> 8).toUInt8, (x >>> 16).toUInt8, (x >>> 24).toUInt8]

def beBytes32 (x : UInt32) : Vector UInt8 4 :=
  #v[(x >>> 24).toUInt8, (x >>> 16).toUInt8, (x >>> 8).toUInt8, x.toUInt8]

def leWord64 (b : Vector UInt8 8) : UInt64 :=
  b[0].toUInt64 ||| b[1].toUInt64 <<< 8 ||| b[2].toUInt64 <<< 16 ||| b[3].toUInt64 <<< 24 |||
    b[4].toUInt64 <<< 32 ||| b[5].toUInt64 <<< 40 ||| b[6].toUInt64 <<< 48 ||| b[7].toUInt64 <<< 56

def leBytes64 (x : UInt64) : Vector UInt8 8 :=
  #v[x.toUInt8, (x >>> 8).toUInt8, (x >>> 16).toUInt8, (x >>> 24).toUInt8,
    (x >>> 32).toUInt8, (x >>> 40).toUInt8, (x >>> 48).toUInt8, (x >>> 56).toUInt8]

def beBytes64 (x : UInt64) : Vector UInt8 8 := (leBytes64 x).reverse

/-! ### Byte order -/

/-- Which byte of a word comes first. -/
inductive ByteOrder
  | little
  | big
deriving DecidableEq, Repr

namespace ByteOrder

def read : ByteOrder → Vector UInt8 4 → UInt32
  | little => leWord32
  | big => beWord32

def write : ByteOrder → UInt32 → Vector UInt8 4
  | little => leBytes32
  | big => beBytes32

end ByteOrder

/-! ### Slices and blocks -/

/-- The `k` bytes of `v` from position `i` on. -/
def slice {n : Nat} (v : Vector UInt8 n) (i k : Nat) (h : i + k ≤ n) : Vector UInt8 k :=
  Vector.ofFn fun j => v[i + j]

/-- The words of a vector of bytes, read in steps of four. -/
def words32 (order : ByteOrder) {n : Nat} (v : Vector UInt8 (4 * n)) : Vector UInt32 n :=
  Vector.ofFn fun i => order.read (slice v (4 * i) 4 (by omega))

/-- The words of a vector of bytes, read in steps of eight, least significant byte first. -/
def words64 {n : Nat} (v : Vector UInt8 (8 * n)) : Vector UInt64 n :=
  Vector.ofFn fun i => leWord64 (slice v (8 * i) 8 (by omega))

def bytesOfWords32 (order : ByteOrder) {n : Nat} (w : Vector UInt32 n) : Vector UInt8 (4 * n) :=
  Vector.ofFn fun i => (order.write (w[i.val / 4]))[i.val % 4]

def bytesOfWords64 {n : Nat} (w : Vector UInt64 n) : Vector UInt8 (8 * n) :=
  Vector.ofFn fun i => (leBytes64 (w[i.val / 8]))[i.val % 8]

namespace Bytes

/-- Block `c` of a message cut into blocks of `n` bytes. -/
def block (b : Bytes) (n c : Nat) (h : c * n + n ≤ b.size) : Vector UInt8 n :=
  slice b.toVector (c * n) n h

theorem block_in_range {size n c : Nat} (h : c < size / n) : c * n + n ≤ size := by
  have : (c + 1) * n ≤ size / n * n := Nat.mul_le_mul_right n h
  have := Nat.div_mul_le_self size n
  rw [Nat.add_mul, Nat.one_mul] at *
  omega

/-- The full blocks of `n` bytes that a message starts with, in order. -/
def blocks (b : Bytes) (n : Nat) : List (Vector UInt8 n) :=
  List.ofFn fun c : Fin (b.size / n) => b.block n c (block_in_range c.isLt)

/-- What follows the full blocks. -/
def rest (b : Bytes) (n : Nat) : Bytes := b.extract (b.size / n * n) b.size

theorem size_rest_lt (b : Bytes) {n : Nat} (hn : 0 < n) : (b.rest n).size < n := by
  have := Nat.div_add_mod' b.size n
  have := Nat.mod_lt b.size hn
  simp only [rest, Array.size_extract]
  omega

/-- A block that holds a short rest, a byte `mark` right after it, and zeros. -/
def marked (rest : Bytes) (n : Nat) (mark : UInt8) : Vector UInt8 n :=
  Vector.ofFn fun i =>
    if h : i.val < rest.size then rest[i.val] else if i.val = rest.size then mark else 0

end Bytes

/-- `v` with eight bytes of it, from position `i` on, replaced. -/
def overlay {n : Nat} (v : Vector UInt8 n) (i : Nat) (w : Vector UInt8 8) : Vector UInt8 n :=
  Vector.ofFn fun j => if h : i ≤ j.val ∧ j.val < i + 8 then w[j.val - i] else v[j]

end ProofOfWork

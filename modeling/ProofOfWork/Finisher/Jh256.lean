import ProofOfWork.Bytes

/-!
# ProofOfWork.Finisher.Jh256 — JH-256

The state is 128 bytes.  The permutation works on 256 elements of four bits, gathered from four
quarters of the state: 42 rounds of substitution by one of two tables, mixing of neighbours and a
fixed rearrangement.  Which table an element takes is a bit of the round constant, and the round
constants are the images of the first under the same round on 64 elements.
-/

namespace ProofOfWork.Finisher.Jh256

/-! ### The round -/

def table0 : Vector UInt8 16 := #v[9, 0, 4, 11, 13, 12, 3, 15, 1, 10, 2, 6, 7, 5, 8, 14]

def table1 : Vector UInt8 16 := #v[3, 12, 6, 13, 5, 7, 1, 9, 15, 2, 0, 4, 11, 10, 14, 8]

def substitute (bit : Bool) (x : UInt8) : UInt8 :=
  let i := x.toNat % 16
  if bit then table1[i] else table0[i]

/-- Doubling in the field of four bits modulo x⁴ + x + 1. -/
def double (x : UInt8) : UInt8 := (x <<< 1 ^^^ x >>> 3 ^^^ (x >>> 2 &&& 2)) &&& 0xf

/-- The mixed value at place `i`, where `v` gives the substituted ones: neighbours `a` and `b` become
`a + 2 * (b + 2 * a)` and `b + 2 * a`. -/
def mixed (v : Nat → UInt8) (i : Nat) : UInt8 :=
  let a := v (i / 2 * 2)
  let b := v (i / 2 * 2 + 1) ^^^ double a
  if i % 2 = 0 then a ^^^ double b else b

/-- Where, among `2 * half` elements, the one at place `i` comes from: from the even places below
`half` and from the odd ones above, with every other pair of neighbours swapped before and the
upper half's neighbours swapped after. -/
def origin (half i : Nat) : Nat :=
  let j := if i < half then 2 * i else 2 * ((i ^^^ 1) - half) + 1
  if j % 4 < 2 then j else j ^^^ 1

/-- A round on `2 * half` elements; `bit i` selects the table for place `i`. -/
def round (half : Nat) (bit : Nat → Bool) (x : Array UInt8) : Array UInt8 :=
  let v := x.mapIdx fun i b => substitute (bit i) b
  Array.ofFn fun i : Fin x.size => mixed (v.getD · 0) (origin half i)

/-! ### Round constants -/

/-- The first 256 bits of the fraction of the square root of two, in elements of four bits. -/
def firstConstant : Array UInt8 :=
  let bytes : Bytes :=
    #[0x6a, 0x09, 0xe6, 0x67, 0xf3, 0xbc, 0xc9, 0x08, 0xb2, 0xfb, 0x13, 0x66, 0xea, 0x95, 0x7d, 0x3e,
      0x3a, 0xde, 0xc1, 0x75, 0x12, 0x77, 0x50, 0x99, 0xda, 0x2f, 0x59, 0x0b, 0x06, 0x67, 0x32, 0x2a]
  bytes.flatMap fun (b : UInt8) => #[b >>> 4, b &&& 0xf]

/-- The constants of 42 rounds. -/
def constants : List (Array UInt8) :=
  (List.range 42).map fun r => Nat.repeat (round 32 fun _ => false) r firstConstant

/-- Bit `i` of a constant, the highest bit of each element first. -/
def constantBit (c : Array UInt8) (i : Nat) : Bool :=
  (c.getD (i / 4) 0 >>> (3 - i % 4).toUInt8) &&& 1 == 1

/-! ### The permutation of the state -/

abbrev State := Vector UInt8 128

/-- Bit `i` of the state, the highest bit of each byte first. -/
def bit (h : State) (i : Nat) : UInt8 :=
  (h[i / 8 % 128] >>> (7 - i % 8).toUInt8) &&& 1

/-- Element `i` takes a bit from each quarter; the even elements come before the odd ones. -/
def gather (h : State) : Array UInt8 :=
  Array.ofFn fun i : Fin 256 =>
    let k := i.val / 2 + 128 * (i.val % 2)
    bit h k <<< 3 ||| bit h (k + 256) <<< 2 ||| bit h (k + 512) <<< 1 ||| bit h (k + 768)

/-- Bit `i` of the state that the elements were gathered from. -/
def scatteredBit (x : Array UInt8) (i : Nat) : UInt8 :=
  let k := i % 256
  (x.getD (2 * (k % 128) + k / 128) 0 >>> (3 - i / 256).toUInt8) &&& 1

def scatter (x : Array UInt8) : State :=
  Vector.ofFn fun i => (List.range 8).foldl (fun b k => b <<< 1 ||| scatteredBit x (8 * i.val + k)) 0

def permute (h : State) : State :=
  scatter (constants.foldl (fun x c => round 128 (constantBit c) x) (gather h))

/-! ### Compression -/

/-- The block is added to the first half before the permutation and to the second after it. -/
def compress (h : State) (m : Vector UInt8 64) : State :=
  let h : State := Vector.ofFn fun i => if _ : i.val < 64 then h[i] ^^^ m[i.val] else h[i]
  let h := permute h
  Vector.ofFn fun i => if _ : 64 ≤ i.val then h[i] ^^^ m[i.val - 64] else h[i]

/-- The digest's length in bits and zeros, compressed with a block of zeros. -/
def initial : State := compress ((Vector.replicate 128 0).set 0 1) (Vector.replicate 64 0)

/-- The end of the message and the padding, which is at least a whole block long. -/
def lastBlocks (message : Bytes) : List (Vector UInt8 64) :=
  let rest := message.rest 64
  let bits := beBytes64 (8 * message.size).toUInt64
  let b := rest.marked 64 0x80
  if rest.isEmpty then [overlay b 56 bits]
  else [b, overlay (Vector.replicate 64 0) 56 bits]

def hash (message : Bytes) : Digest :=
  slice ((message.blocks 64 ++ lastBlocks message).foldl compress initial) 96 32 (by omega)

end ProofOfWork.Finisher.Jh256

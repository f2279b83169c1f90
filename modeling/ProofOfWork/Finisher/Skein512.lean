import ProofOfWork.Bytes

/-!
# ProofOfWork.Finisher.Skein512 — Skein-512 with a digest of 256 bits

The tweakable cipher Threefish-512 on eight words, and the chaining that runs it over the
configuration, the message and the output counter in turn.
-/

namespace ProofOfWork.Finisher.Skein512

abbrev Words := Vector UInt64 8

/-! ### The cipher -/

def rotations : Vector (Vector UInt64 4) 8 :=
  #v[#v[46, 36, 19, 37], #v[33, 27, 14, 42], #v[17, 49, 36, 39], #v[44, 9, 54, 56],
    #v[39, 30, 34, 24], #v[13, 50, 10, 17], #v[25, 29, 39, 43], #v[8, 35, 56, 22]]

/-- Where each word comes from after a round's mixing. -/
def source : Vector (Fin 8) 8 := #v[2, 1, 4, 7, 6, 5, 0, 3]

/-- Mixes the four pairs of neighbours, then moves the words. -/
def round (x : Words) (d : Nat) : Words :=
  let r := rotations[d % 8]
  let y : Words := Vector.ofFn fun i =>
    let k := i.val / 2
    let low := x[2 * k] + x[2 * k + 1]
    if i.val % 2 = 0 then low else rotl64 x[2 * k + 1] r[k] ^^^ low
  Vector.ofFn fun i => y.get (source.get i)

/-- The key and its parity word. -/
def extendedKey (key : Words) : Vector UInt64 9 :=
  key.push (key.foldl (· ^^^ ·) 0x1bd11bdaa9fc1a22)

def subkey (key : Vector UInt64 9) (tweak : Vector UInt64 3) (s : Nat) : Words :=
  Vector.ofFn fun i =>
    let k := key[(s + i.val) % 9]
    if i.val = 5 then k + tweak[s % 3]
    else if i.val = 6 then k + tweak[(s + 1) % 3]
    else if i.val = 7 then k + s.toUInt64
    else k

def addWords (x y : Words) : Words := Vector.zipWith (· + ·) x y

/-- A subkey goes in before every fourth round and after the last. -/
def encrypt (key : Words) (t0 t1 : UInt64) (x : Words) : Words :=
  let k := extendedKey key
  let t := #v[t0, t1, t0 ^^^ t1]
  let fourRounds (x : Words) (s : Nat) : Words :=
    (List.range 4).foldl (fun x d => round x (4 * s + d)) (addWords x (subkey k t s))
  addWords ((List.range 18).foldl fourRounds x) (subkey k t 18)

/-! ### Chaining -/

/-- What a chained input is for; the number goes into the tweak. -/
inductive Role
  | config
  | message
  | output

def Role.code : Role → UInt64
  | config => 4
  | message => 48
  | output => 63

/-- One block; `position` counts the bytes up to and including it. -/
def chainBlock (role : Role) (h : Words) (block : Vector UInt8 64) (position : UInt64)
    (first final : Bool) : Words :=
  let m := words64 (n := 8) block
  let flags : UInt64 := (if first then 0x4000000000000000 else 0) ||| if final then 0x8000000000000000 else 0
  Vector.zipWith (· ^^^ ·) (encrypt h position (flags ||| role.code <<< 56) m) m

/-- A whole input, its last block filled up with zeros; the last block is never empty unless the
input is. -/
def chain (role : Role) (h : Words) (input : Bytes) : Words :=
  let full := (input.size - 1) / 64
  let body : Bytes := input.extract 0 (64 * full)
  let tail : Bytes := input.extract (64 * full) input.size
  let step (p : Words × Nat) (block : Vector UInt8 64) : Words × Nat :=
    (chainBlock role p.1 block (64 * (p.2 + 1)).toUInt64 (p.2 == 0) false, p.2 + 1)
  let h := ((body.blocks 64).foldl step (h, 0)).1
  chainBlock role h (tail.marked 64 0) input.size.toUInt64 (full == 0) true

/-- Schema, version and the digest's length in bits. -/
def config : Bytes :=
  #[0x53, 0x48, 0x41, 0x33, 1, 0, 0, 0, 0, 1, 0, 0, 0, 0, 0, 0] ++ Array.replicate 16 0

def initial : Words := chain .config (Vector.replicate 8 0) config

def hash (message : Bytes) : Digest :=
  let h := chain .message initial message
  slice (bytesOfWords64 (chain .output h (Array.replicate 8 0))) 0 32 (by omega)

end ProofOfWork.Finisher.Skein512

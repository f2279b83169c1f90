import Mathlib.Order.Bounds.Defs
import ProofOfWork.Finisher.Blake256
import ProofOfWork.Proofs.BitStrings
import ProofOfWork.Proofs.Blake256.Constants
import ProofOfWork.Proofs.Sha256.Standard

/-!
# ProofOfWork.Proofs.Blake256.Standard — BLAKE-256 as its definition has it

A message is a string of bits: it is padded first, then cut into blocks, and the counter of a block
is derived from the place of the block.  The function `G` assigns one place of the working state
after the other.  The initial value, the rotations and the order of the output bytes are those of
SHA-256.
-/

namespace ProofOfWork.Finisher.Blake256.Standard

open Sha256.Standard (rotateRight initialValue serialize)

/-! ### Compression -/

/-- One half of `G`: a word is added, and two places are rotated. -/
def halfG (x : UInt32) (m n : Fin 32) (a b c d : Fin 16) (v : Vector UInt32 16) :
    Vector UInt32 16 :=
  let v := v.set a (v[a] + v[b] + x)
  let v := v.set d (rotateRight m (v[d] ^^^ v[a]))
  let v := v.set c (v[c] + v[d])
  v.set b (rotateRight n (v[b] ^^^ v[c]))

theorem first_lt (i : Fin 8) : 2 * i.val < 16 := by omega

theorem second_lt (i : Fin 8) : 2 * i.val + 1 < 16 := by omega

/-- The function `G` with number `i` in round `r`, on the places `a`, `b`, `c`, `d`. -/
def G (m : Vector UInt32 16) (r : Nat) (i : Fin 8) (a b c d : Fin 16) (v : Vector UInt32 16) :
    Vector UInt32 16 :=
  let j := order r ⟨2 * i.val, first_lt i⟩
  let k := order r ⟨2 * i.val + 1, second_lt i⟩
  halfG (m.get k ^^^ constant j) 8 7 a b c d (halfG (m.get j ^^^ constant k) 16 12 a b c d v)

def round (m : Vector UInt32 16) (v : Vector UInt32 16) (r : Nat) : Vector UInt32 16 :=
  let v := G m r 0 0 4 8 12 v
  let v := G m r 1 1 5 9 13 v
  let v := G m r 2 2 6 10 14 v
  let v := G m r 3 3 7 11 15 v
  let v := G m r 4 0 5 10 15 v
  let v := G m r 5 1 6 11 12 v
  let v := G m r 6 2 7 8 13 v
  G m r 7 3 4 9 14 v

theorem salt_lt (i : Fin 8) : i.val % 4 < 4 := Nat.mod_lt _ (by decide)

theorem lower_lt (i : Fin 8) : i.val < 16 := by omega

theorem upper_lt (i : Fin 8) : i.val + 8 < 16 := by omega

/-- The next chain value after the block `m`, with salt `s` and counter `t`. -/
def compress (s : Vector UInt32 4) (h : Chain) (m : Vector UInt32 16) (t : Nat) : Chain :=
  let t0 := t.toUInt32
  let t1 := (t / 2 ^ 32).toUInt32
  let v := (List.range 14).foldl (round m) (h ++ #v[s.get 0 ^^^ constant 0, s.get 1 ^^^ constant 1,
    s.get 2 ^^^ constant 2, s.get 3 ^^^ constant 3, t0 ^^^ constant 4, t0 ^^^ constant 5,
    t1 ^^^ constant 6, t1 ^^^ constant 7])
  Vector.ofFn fun i =>
    h.get i ^^^ s.get ⟨i.val % 4, salt_lt i⟩ ^^^ v.get ⟨i.val, lower_lt i⟩
      ^^^ v.get ⟨i.val + 8, upper_lt i⟩

/-! ### Messages -/

/-- How many zero bits follow the first mark in a message of `l` bits. -/
def paddingZeros (l : Nat) : Nat := (958 - l % 512) % 512

/-- A bit 1, zeros, a bit 1 and the length. -/
def pad (m : List Bool) : List Bool :=
  m ++ [true] ++ List.replicate (paddingZeros m.length) false ++ [true] ++ bitsOf 64 m.length

theorem isLeast_paddingZeros (l : Nat) :
    IsLeast {z | (l + 1 + z) % 512 = 447} (paddingZeros l) := by
  unfold paddingZeros
  refine ⟨?_, fun z hz => ?_⟩
  · change _ % 512 = 447
    omega
  · change _ % 512 = 447 at hz
    omega

theorem length_pad (m : List Bool) : (pad m).length = m.length + paddingZeros m.length + 66 := by
  simp [pad]
  omega

/-- The padded message is cut into blocks without a rest. -/
theorem length_pad_mod (m : List Bool) : (pad m).length % 512 = 0 := by
  rw [length_pad]
  unfold paddingZeros
  omega

/-- The sixteen words of block `i` of a string of bits. -/
def blockWords (p : List Bool) (i : Nat) : Vector UInt32 16 :=
  Vector.ofFn fun j => (numberOfBits ((p.drop (512 * i + 32 * j.val)).take 32)).toUInt32

/-- The counter of block `i` for a message of `l` bits: how many of these are in the blocks up to
and including this one, or zero if none is in this one. -/
def counter (l i : Nat) : Nat := if 512 * i < l then min l (512 * (i + 1)) else 0

/-- Without salt. -/
def hashValue (m : List Bool) : Chain :=
  (List.range ((pad m).length / 512)).foldl
    (fun h i => compress (Vector.replicate 4 0) h (blockWords (pad m) i) (counter m.length i))
    initialValue

def digest (message : Bytes) : Digest := serialize (hashValue (bits message.toList))

/-- A published digest, of one zero byte. -/
example : digest #[0]
    = #v[0x0c, 0xe8, 0xd4, 0xef, 0x4d, 0xd7, 0xcd, 0x8d, 0x62, 0xdf, 0xde, 0xd9, 0xd4, 0xed, 0xb0,
      0xa7, 0x74, 0xae, 0x6a, 0x41, 0x92, 0x9a, 0x74, 0xda, 0x23, 0x10, 0x9e, 0x8f, 0x11, 0x13,
      0x9c, 0x87] := by
  decide +kernel

end ProofOfWork.Finisher.Blake256.Standard

import ProofOfWork.Bytes
import ProofOfWork.PrimeRoots

/-!
# ProofOfWork.Finisher.Blake256 — BLAKE-256

Fourteen rounds without salt.  Each block is compressed together with the number of message bits up
to and including it; a block that holds padding alone counts as zero.
-/

namespace ProofOfWork.Finisher.Blake256

abbrev Chain := Vector UInt32 8

def initial : Chain := primeRoots

/-- The first digits of the fraction of π. -/
def pi : Vector UInt32 16 :=
  #v[0x243f6a88, 0x85a308d3, 0x13198a2e, 0x03707344, 0xa4093822, 0x299f31d0, 0x082efa98, 0xec4e6c89,
    0x452821e6, 0x38d01377, 0xbe5466cf, 0x34e90c6c, 0xc0ac29b7, 0xc97c50dd, 0x3f84d5b5, 0xb5470917]

/-- The order in which a round takes the words of the block. -/
def sigma : Vector (Vector (Fin 16) 16) 10 :=
  #v[
    #v[0, 1, 2, 3, 4, 5, 6, 7, 8, 9, 10, 11, 12, 13, 14, 15],
    #v[14, 10, 4, 8, 9, 15, 13, 6, 1, 12, 0, 2, 11, 7, 5, 3],
    #v[11, 8, 12, 0, 5, 2, 15, 13, 10, 14, 3, 6, 7, 1, 9, 4],
    #v[7, 9, 3, 1, 13, 12, 11, 14, 2, 6, 5, 10, 4, 0, 15, 8],
    #v[9, 0, 5, 7, 2, 4, 10, 15, 14, 1, 11, 12, 6, 8, 3, 13],
    #v[2, 12, 6, 10, 0, 11, 8, 3, 4, 13, 7, 5, 15, 14, 1, 9],
    #v[12, 5, 1, 15, 14, 13, 4, 10, 0, 7, 6, 3, 9, 2, 8, 11],
    #v[13, 11, 7, 14, 12, 1, 3, 9, 5, 0, 15, 4, 8, 6, 2, 10],
    #v[6, 15, 14, 9, 11, 3, 0, 8, 12, 2, 13, 7, 1, 4, 10, 5],
    #v[10, 2, 8, 4, 7, 6, 1, 5, 15, 11, 9, 14, 3, 12, 13, 0]]

/-- Four places of the working state, and which pair of block words they take. -/
structure Quarter where
  a : Fin 16
  b : Fin 16
  c : Fin 16
  d : Fin 16
  pair : Fin 8

/-- The columns, then the diagonals. -/
def quarters : List Quarter :=
  [⟨0, 4, 8, 12, 0⟩, ⟨1, 5, 9, 13, 1⟩, ⟨2, 6, 10, 14, 2⟩, ⟨3, 7, 11, 15, 3⟩,
   ⟨0, 5, 10, 15, 4⟩, ⟨1, 6, 11, 12, 5⟩, ⟨2, 7, 8, 13, 6⟩, ⟨3, 4, 9, 14, 7⟩]

def mix (m : Vector UInt32 16) (s : Vector (Fin 16) 16) (v : Vector UInt32 16) (q : Quarter) :
    Vector UInt32 16 :=
  let i := s[2 * q.pair.val]
  let j := s[2 * q.pair.val + 1]
  let a := v[q.a] + v[q.b] + (m[i] ^^^ pi[j])
  let d := rotr32 (v[q.d] ^^^ a) 16
  let c := v[q.c] + d
  let b := rotr32 (v[q.b] ^^^ c) 12
  let a := a + b + (m[j] ^^^ pi[i])
  let d := rotr32 (d ^^^ a) 8
  let c := c + d
  let b := rotr32 (b ^^^ c) 7
  (((v.set q.a a).set q.b b).set q.c c).set q.d d

def round (m : Vector UInt32 16) (v : Vector UInt32 16) (r : Nat) : Vector UInt32 16 :=
  quarters.foldl (mix m (sigma[r % 10])) v

def compress (h : Chain) (block : Vector UInt8 64) (counter : UInt64) : Chain :=
  let m := words32 .big (n := 16) block
  let t0 := counter.toUInt32
  let t1 := (counter >>> 32).toUInt32
  let v : Vector UInt32 16 := h ++ #v[pi[0], pi[1], pi[2], pi[3], pi[4] ^^^ t0, pi[5] ^^^ t0,
    pi[6] ^^^ t1, pi[7] ^^^ t1]
  let v := (List.range 14).foldl (round m) v
  Vector.ofFn fun i => h[i] ^^^ v[i.val] ^^^ v[i.val + 8]

/-- One full block after another, each adding 512 to the count of bits. -/
def absorb (p : Chain × UInt64) (block : Vector UInt8 64) : Chain × UInt64 :=
  let counter := p.2 + 512
  (compress p.1 block counter, counter)

/-- The bit that ends the padding, and the length. -/
def close (block : Vector UInt8 64) (bits : UInt64) : Vector UInt8 64 :=
  overlay (block.set 55 (block[55] ||| 0x01)) 56 (beBytes64 bits)

/-- The block or two that hold the end of the message and the padding. -/
def finish (h : Chain) (rest : Bytes) (bits : UInt64) : Chain :=
  let b := rest.marked 64 0x80
  if rest.size ≤ 55 then compress h (close b bits) (if rest.isEmpty then 0 else bits)
  else compress (compress h b bits) (close (Vector.replicate 64 0) bits) 0

def hash (message : Bytes) : Digest :=
  let h := ((message.blocks 64).foldl absorb (initial, 0)).1
  bytesOfWords32 .big (n := 8) (finish h (message.rest 64) (8 * message.size).toUInt64)

end ProofOfWork.Finisher.Blake256

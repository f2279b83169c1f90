import ProofOfWork.Aes.SBox
import ProofOfWork.Bytes

/-!
# ProofOfWork.Finisher.Groestl256 — Grøstl-256

The state is eight columns of eight bytes, byte `8 * c + r` standing in row `r` of column `c`.  Two
permutations of ten rounds make up the compression function; the digest is the second half of the
last state plus its image under the first permutation.
-/

namespace ProofOfWork.Finisher.Groestl256

abbrev Block := Vector UInt8 64

/-- What tells the two permutations apart: the constants and the row shifts. -/
structure Flavour where
  constant : (round row column : UInt8) → UInt8
  shift : Vector (Fin 8) 8

def flavourP : Flavour where
  constant r row c := if row = 0 then c <<< 4 ^^^ r else 0
  shift := #v[0, 1, 2, 3, 4, 5, 6, 7]

def flavourQ : Flavour where
  constant r row c := if row = 7 then ~~~(c <<< 4 ^^^ r) else 0xff
  shift := #v[1, 3, 5, 7, 0, 2, 4, 6]

/-- Adds the round's constants, then substitutes as AES does. -/
def substitute (f : Flavour) (r : UInt8) (x : Block) : Block :=
  x.mapFinIdx fun i b _ => Aes.sub (b ^^^ f.constant r (i % 8).toUInt8 (i / 8).toUInt8)

/-- Row `i` turns left by its shift. -/
def shiftRows (f : Flavour) (x : Block) : Block :=
  Vector.ofFn fun i =>
    let row := i.val % 8
    let c := (i.val / 8 + f.shift[row]) % 8
    x[8 * c + row]

/-- Each column times the circulant matrix of 2, 2, 3, 4, 5, 3, 5 and 7. -/
def mixColumns (x : Block) : Block :=
  Vector.ofFn fun i =>
    let base := i.val / 8 * 8
    let at1 (k : Nat) : UInt8 := x[base + (i.val + k) % 8]
    let at2 (k : Nat) : UInt8 := Aes.double (at1 k)
    let at4 (k : Nat) : UInt8 := Aes.double (at2 k)
    at2 0 ^^^ at2 1 ^^^ (at2 2 ^^^ at1 2) ^^^ at4 3 ^^^ (at4 4 ^^^ at1 4) ^^^ (at2 5 ^^^ at1 5) ^^^
      (at4 6 ^^^ at1 6) ^^^ (at4 7 ^^^ at2 7 ^^^ at1 7)

def round (f : Flavour) (x : Block) (r : Nat) : Block :=
  mixColumns (shiftRows f (substitute f r.toUInt8 x))

def permute (f : Flavour) (x : Block) : Block := (List.range 10).foldl (round f) x

def add (x y : Block) : Block := Vector.zipWith (· ^^^ ·) x y

def compress (h m : Block) : Block := add (add (permute flavourP (add h m)) (permute flavourQ m)) h

/-- All zero but for the digest's length in bits, at the end. -/
def initial : Block := (Vector.replicate 64 0).set 62 1

/-- The end of the message and its padding, of which the number of blocks is the last word. -/
def lastBlocks (message : Bytes) : List Block :=
  let rest := message.rest 64
  let full := message.size / 64
  let b := rest.marked 64 0x80
  if rest.size ≤ 55 then [overlay b 56 (beBytes64 (full + 1).toUInt64)]
  else [b, overlay (Vector.replicate 64 0) 56 (beBytes64 (full + 2).toUInt64)]

def hash (message : Bytes) : Digest :=
  let h := (message.blocks 64 ++ lastBlocks message).foldl compress initial
  slice (add (permute flavourP h) h) 32 32 (by omega)

end ProofOfWork.Finisher.Groestl256

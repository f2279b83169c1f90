import Mathlib.Algebra.Ring.Nat
import Mathlib.Data.Nat.NthRoot.Defs
import Mathlib.Data.Nat.Prime.Basic
import ProofOfWork.Proofs.Bits
import ProofOfWork.Proofs.Digits
import ProofOfWork.Sha256.Batch

/-!
# ProofOfWork.Proofs.Sha256.Standard — SHA-256 as FIPS 180-4 writes it

The whole schedule of 64 words, rotations to the right, the two Boolean functions and the padding,
in the standard's own terms.  The constants are computed from what they are: roots of primes.  Words
are read and written most significant byte first, as digits to base 256.
-/

namespace ProofOfWork.Sha256.Standard

/-! ### Constants -/

/-- The first 64 primes. -/
def primes : Vector Nat 64 :=
  #v[2, 3, 5, 7, 11, 13, 17, 19, 23, 29, 31, 37, 41, 43, 47, 53,
    59, 61, 67, 71, 73, 79, 83, 89, 97, 101, 103, 107, 109, 113, 127, 131,
    137, 139, 149, 151, 157, 163, 167, 173, 179, 181, 191, 193, 197, 199, 211, 223,
    227, 229, 233, 239, 241, 251, 257, 263, 269, 271, 277, 281, 283, 293, 307, 311]

/-- A composite number has a divisor whose square it reaches. -/
theorem prime_of_lt_sq {m p : Nat} (hp : p < m ^ 2) (h2 : 2 ≤ p)
    (h : ∀ d < m, 2 ≤ d → d ∣ p → d = p) : p.Prime := by
  have hfac : p.minFac.Prime := Nat.minFac_prime (by omega)
  by_contra hprime
  have hsq : p.minFac ^ 2 ≤ p := Nat.minFac_sq_le_self (by omega) hprime
  have hlt : p.minFac < m := (Nat.pow_lt_pow_iff_left (by decide)).mp (Nat.lt_of_le_of_lt hsq hp)
  exact hprime (h p.minFac hlt hfac.two_le p.minFac_dvd ▸ hfac)

theorem mem_primes {p : Nat} (hp : p < 312) : p ∈ primes.toList ↔ p.Prime := by
  have hsieve : primes.toList
      = (List.range 312).filter fun p => 2 ≤ p ∧ ∀ d < 18, 2 ≤ d → d ∣ p → d = p := by
    decide +kernel
  simp only [hsieve, List.mem_filter, List.mem_range, hp, true_and, decide_eq_true_eq]
  refine ⟨fun ⟨h2, h⟩ => prime_of_lt_sq (by omega) h2 h, fun h => ⟨h.two_le, fun d _ hd hdvd => ?_⟩⟩
  exact (h.eq_one_or_self_of_dvd d hdvd).resolve_left (by omega)

/-- The first 32 bits of the fraction of the `k`-th root of `p`; the whole part is cut off above. -/
def rootFraction (k p : Nat) : UInt32 := (Nat.nthRoot k (p * 2 ^ (32 * k))).toUInt32

def initialValue : Vector UInt32 8 := Vector.ofFn fun i => rootFraction 2 primes[i]

def constants : Vector UInt32 64 := primes.map (rootFraction 3)

/-! ### Functions -/

def rotateRight (n : Fin 32) (x : UInt32) : UInt32 := ⟨x.toBitVec.rotateRight n⟩

def ch (x y z : UInt32) : UInt32 := (x &&& y) ^^^ (~~~x &&& z)

def maj (x y z : UInt32) : UInt32 := (x &&& y) ^^^ (x &&& z) ^^^ (y &&& z)

def bigSigma0 (x : UInt32) : UInt32 := rotateRight 2 x ^^^ rotateRight 13 x ^^^ rotateRight 22 x

def bigSigma1 (x : UInt32) : UInt32 := rotateRight 6 x ^^^ rotateRight 11 x ^^^ rotateRight 25 x

def smallSigma0 (x : UInt32) : UInt32 := rotateRight 7 x ^^^ rotateRight 18 x ^^^ x >>> 3

def smallSigma1 (x : UInt32) : UInt32 := rotateRight 17 x ^^^ rotateRight 19 x ^^^ x >>> 10

/-! ### Compression -/

/-- The sixteen words of a block and the next `n` of the schedule. -/
def scheduleWords (m : Vector UInt32 16) : (n : Nat) → Vector UInt32 (16 + n)
  | 0 => m
  | n + 1 =>
    let w := scheduleWords m n
    w.push (smallSigma1 w[14 + n] + w[9 + n] + smallSigma0 w[1 + n] + w[n])

def schedule (m : Vector UInt32 16) : Vector UInt32 64 := scheduleWords m 48

/-- A round on the working variables. -/
def round (v : Vector UInt32 8) (k w : UInt32) : Vector UInt32 8 :=
  match v with
  | ⟨⟨[a, b, c, d, e, f, g, h]⟩, _⟩ =>
    let t1 := h + bigSigma1 e + ch e f g + k + w
    let t2 := bigSigma0 a + maj a b c
    #v[t1 + t2, a, b, c, d + t1, e, f, g]

def rounds (m : Vector UInt32 16) (h : Vector UInt32 8) : Vector UInt32 8 :=
  Nat.fold 64 (fun t ht v => round v constants[t] (schedule m)[t]) h

def wordAt (b : Block) (t : Fin 16) : UInt32 :=
  ((b[4 * t.val].toNat * 256 + b[4 * t.val + 1].toNat) * 256 + b[4 * t.val + 2].toNat) * 256
    + b[4 * t.val + 3].toNat |>.toUInt32

/-- The next hash value after a block. -/
def compress (h : Vector UInt32 8) (b : Block) : Vector UInt32 8 :=
  Vector.zipWith (· + ·) h (rounds (Vector.ofFn (wordAt b)) h)

def hashValue (blocks : List Block) : Vector UInt32 8 := blocks.foldl compress initialValue

theorem hashValue_append (blocks : List Block) (b : Block) :
    hashValue (blocks ++ [b]) = compress (hashValue blocks) b := by
  rw [hashValue, List.foldl_append]
  rfl

def serialize (h : Vector UInt32 8) : Digest :=
  Vector.ofFn fun i => (h[i.val / 4].toNat / 256 ^ (3 - i.val % 4)).toUInt8

theorem bytesOfWords32_eq_serialize (h : Vector UInt32 8) :
    bytesOfWords32 .big h = serialize h := by
  apply Vector.ext
  intro i hi
  rw [bytesOfWords32, serialize, Vector.getElem_ofFn, Vector.getElem_ofFn]
  exact getElem_beBytes32 _ (Nat.mod_lt _ (by decide))

/-! ### Messages -/

/-- How many zero bytes follow the mark in a message of `n` bytes. -/
def paddingZeros (n : Nat) : Nat := (119 - n % 64) % 64

/-- The number of bits of `n` bytes, in eight bytes. -/
def lengthBytes (n : Nat) : Vector UInt8 8 :=
  Vector.ofFn fun i => (8 * n / 256 ^ (7 - i.val)).toUInt8

/-- A bit 1, as few zeros as fill the last block, and the length end the message. -/
def pad (message : Bytes) : Bytes :=
  message ++ #[0x80] ++ Array.replicate (paddingZeros message.size) 0
    ++ (lengthBytes message.size).toArray

def digest (message : Bytes) : Digest := serialize (hashValue ((pad message).blocks 64))

/-- The digest that the standard gives for `abc`. -/
example : digest #[0x61, 0x62, 0x63]
    = #v[0xba, 0x78, 0x16, 0xbf, 0x8f, 0x01, 0xcf, 0xea, 0x41, 0x41, 0x40, 0xde, 0x5d, 0xae,
      0x22, 0x23, 0xb0, 0x03, 0x61, 0xa3, 0x96, 0x17, 0x7a, 0x9c, 0xb4, 0x10, 0xff, 0x61,
      0xf2, 0x00, 0x15, 0xad] := by
  decide +kernel

/-- The number of zero bits after the mark is the least that leaves 448 bits in the last block. -/
theorem paddingZeros_least (n : Nat) :
    (8 * n + 1 + (7 + 8 * paddingZeros n)) % 512 = 448 ∧
      ∀ z, (8 * n + 1 + z) % 512 = 448 → 7 + 8 * paddingZeros n ≤ z := by
  unfold paddingZeros
  refine ⟨by omega, fun z hz => by omega⟩

theorem size_pad (message : Bytes) :
    (pad message).size = message.size + 1 + paddingZeros message.size + 8 := by
  simp [pad]
  omega

theorem size_pad_mod (message : Bytes) : (pad message).size % 64 = 0 := by
  rw [size_pad]
  unfold paddingZeros
  omega

end ProofOfWork.Sha256.Standard

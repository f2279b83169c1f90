import ProofOfWork.Aes.Round

/-!
# ProofOfWork.Aes.KeySchedule — the first ten round keys of AES-256

The key is eight words; each further word is the one eight places back plus a function of the one
before it.  Forty words make the ten keys.
-/

namespace ProofOfWork.Aes

def subWord (w : UInt32) : UInt32 := leWord32 ((leBytes32 w).map sub)

/-- The first byte of the word goes last. -/
def rotWord (w : UInt32) : UInt32 := rotr32 w 8

/-- The constant of the `i`-th group of eight words, in the word's first byte. -/
def roundConstant (i : Nat) : UInt32 := 1 <<< i.toUInt32

/-- What word `8 + i` adds to the word eight places back, from the word before it. -/
def scheduleCore (i : Nat) (w : UInt32) : UInt32 :=
  if i % 8 = 0 then subWord (rotWord w) ^^^ roundConstant (i / 8)
  else if i % 8 = 4 then subWord w
  else w

/-- The key and the next `n` words of the schedule. -/
def scheduleWords (key : Vector UInt32 8) : (n : Nat) → Vector UInt32 (8 + n)
  | 0 => key
  | n + 1 =>
    let w := scheduleWords key n
    w.push (w[n] ^^^ scheduleCore n w[7 + n])

/-- The keys of a schedule that starts with the words of `k0` and `k1`. -/
def expandKey (k0 k1 : Line) : RoundKeys :=
  let w := scheduleWords #v[k0.word0, k0.word1, k0.word2, k0.word3, k1.word0, k1.word1, k1.word2,
    k1.word3] 32
  Vector.ofFn fun k => Line.ofWords w[4 * k.val] w[4 * k.val + 1] w[4 * k.val + 2] w[4 * k.val + 3]

/-- Only the first 32 bytes of a key count. -/
def roundKeys? (key : Bytes) : Option RoundKeys :=
  if h : 32 ≤ key.size then
    some (expandKey (Line.ofBytes (slice key.toVector 0 16 (by omega)))
      (Line.ofBytes (slice key.toVector 16 16 (by omega))))
  else none

end ProofOfWork.Aes

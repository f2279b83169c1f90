/-!
# ProofOfWork.PrimeRoots — the words that two hash functions start from
-/

namespace ProofOfWork

/-- The first 32 bits of the fractions of the square roots of the first eight primes. -/
def primeRoots : Vector UInt32 8 :=
  #v[0x6a09e667, 0xbb67ae85, 0x3c6ef372, 0xa54ff53a, 0x510e527f, 0x9b05688c, 0x1f83d9ab, 0x5be0cd19]

end ProofOfWork

import ProofOfWork.Bytes

/-!
# ProofOfWork.Difficulty — whether a digest meets a difficulty

A digest read as a number, lowest byte first, meets a difficulty if their product is below
`2 ^ 256`.  The product is formed word by word; what is carried out of the last word decides.
-/

namespace ProofOfWork

/-- What is carried out of a word's product with the difficulty. -/
def carryOut (difficulty : UInt64) (carry : Nat) (word : UInt64) : Nat :=
  (word.toNat * difficulty.toNat + carry) / UInt64.size

def meetsDifficulty (digest : Digest) (difficulty : UInt64) : Bool :=
  (words64 (n := 4) digest).foldl (carryOut difficulty) 0 == 0

end ProofOfWork

import ProofOfWork.Sha256.Batch

/-!
# ProofOfWork.Sha256.Padding — a short message as one block
-/

namespace ProofOfWork.Sha256

/-- The longest message that fits one block with the mark and the length. -/
abbrev oneBlockMax : Nat := 55

/-- The message, a bit 1, zeros, and the message's length in bits; a longer message has no such
block. -/
def oneBlock? (message : Bytes) : Option Block :=
  if message.size ≤ oneBlockMax then
    some (overlay (message.marked 64 0x80) 56 (beBytes64 (8 * message.size.toUInt64)))
  else none

end ProofOfWork.Sha256

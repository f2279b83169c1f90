import ProofOfWork.Proofs.Batch
import ProofOfWork.Sha256.Padding

/-!
# ProofOfWork.Proofs.Sha256.Padding — short messages padded by hand

The one block that a message of at most 55 bytes is given is all of the message that the standard
pads (`blocks_pad`); a longer message has more than one (`oneBlock?_eq_some_iff`).  So the digest of
the block is the digest of the message.
-/

namespace ProofOfWork.Sha256

theorem beBytes64_eq_lengthBytes {n : Nat} (h : n < 2 ^ 61) :
    beBytes64 (8 * n.toUInt64) = Standard.lengthBytes n := by
  have hbits : (8 * n.toUInt64).toNat = 8 * n := by
    simp
    omega
  apply Vector.ext
  intro k hk
  rw [getElem_beBytes64 _ hk, hbits, Standard.lengthBytes, Vector.getElem_ofFn]

section Short

variable {message : Bytes} (h : message.size ≤ 55)
include h

theorem paddingZeros_of_le : Standard.paddingZeros message.size = 55 - message.size := by
  unfold Standard.paddingZeros
  omega

/-- The mark is in front of the length, if only just. -/
theorem toList_oneBlock :
    (overlay (message.marked 64 0x80) 56 (beBytes64 (8 * message.size.toUInt64))).toList
      = (Standard.pad message).toList := by
  have hlt : message.size < 64 := by omega
  have hzeros : 64 - 1 - message.size = (55 - message.size) + 8 := by omega
  have hlen : (message.toList ++ [0x80] ++ List.replicate (55 - message.size) 0).length = 56 := by
    simp
    omega
  have hmarked : (message.marked 64 0x80).toList
      = (message.toList ++ [0x80] ++ List.replicate (55 - message.size) 0)
        ++ List.replicate 8 0 := by
    rw [Bytes.toList_marked hlt, hzeros, ← List.replicate_append_replicate]
    simp
  rw [toList_overlay _ _ rfl, hmarked, List.take_left' hlen,
    beBytes64_eq_lengthBytes (by omega), Standard.pad, paddingZeros_of_le h]
  simp only [Array.toList_append, Array.toList_replicate]
  rfl

theorem blocks_pad : (Standard.pad message).blocks 64
    = [overlay (message.marked 64 0x80) 56 (beBytes64 (8 * message.size.toUInt64))] := by
  apply Bytes.blocks_eq (by decide)
  rw [List.flatMap_singleton, toList_oneBlock h]

end Short

/-- A block is the one block of a message exactly if it is all of the padded message. -/
theorem oneBlock?_eq_some_iff {message : Bytes} {b : Block} :
    oneBlock? message = some b ↔ (Standard.pad message).blocks 64 = [b] := by
  unfold oneBlock?
  by_cases h : message.size ≤ 55
  · rw [if_pos h, blocks_pad h, Option.some.injEq, List.cons.injEq]
    exact (and_iff_left rfl).symm
  · rw [if_neg h]
    refine iff_of_false nofun fun hone => ?_
    have hlen := congrArg List.length hone
    have hfull := Standard.size_pad_mod message
    rw [Standard.size_pad] at hfull
    rw [Bytes.length_blocks, Standard.size_pad, List.length_singleton] at hlen
    omega

theorem exists_oneBlock?_iff {message : Bytes} :
    (∃ b, oneBlock? message = some b) ↔ message.size ≤ 55 := by
  unfold oneBlock?
  split
  next h => exact iff_of_true ⟨_, rfl⟩ h
  next h => exact iff_of_false nofun h

theorem blockDigest_of_oneBlock {message : Bytes} {b : Block} (h : oneBlock? message = some b) :
    blockDigest b = Standard.digest message := by
  rw [blockDigest_eq, Standard.digest, oneBlock?_eq_some_iff.mp h]

end ProofOfWork.Sha256

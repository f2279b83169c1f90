import ProofOfWork.Proofs.Blake256.Compression

/-!
# ProofOfWork.Proofs.Blake256.Digest — the program is BLAKE-256

The full blocks of a message and the one or two that are made of its rest are, as bits, the padded
message (`bits_paddedBlocks`): the two marks share a byte if 55 bytes are left, and the padding needs
a block of its own if more are.  The blocks are then followed one at a time (`chain_succ`): the
counter that the program keeps is the one that the definition derives from the place of the block.
-/

namespace ProofOfWork.Finisher.Blake256

/-! ### The last blocks -/

/-- The blocks that are made of the rest of a message. -/
def closing (rest : Bytes) (l : UInt64) : List (Vector UInt8 64) :=
  if rest.size ≤ 55 then [close (rest.marked 64 0x80) l]
  else [rest.marked 64 0x80, close (Vector.replicate 64 0) l]

/-- What stands between a rest of `r` bytes and the length. -/
def marks (r : Nat) : List UInt8 :=
  if r = 55 then [0x81] else 0x80 :: List.replicate ((118 - r) % 64) 0 ++ [0x01]

theorem bits_marks {r : Nat} (h : r < 64) : bits (marks r)
    = [true] ++ List.replicate (Standard.paddingZeros (8 * r)) false ++ [true] := by
  unfold marks Standard.paddingZeros
  split
  next h55 =>
    subst h55
    decide
  next h55 =>
    have hzeros : (958 - 8 * r % 512) % 512 = 7 + (8 * ((118 - r) % 64) + 7) := by omega
    rw [hzeros, bits_append, ← List.singleton_append, bits_append, bits_zeros,
      ← List.replicate_append_replicate, ← List.replicate_append_replicate]
    have hfirst : bits [0x80] = [true] ++ List.replicate 7 false := by decide
    have hlast : bits [0x01] = List.replicate 7 false ++ [true] := by decide
    simp only [hfirst, hlast, List.append_assoc]

/-- Byte 55 is marked and the length follows it, whatever was there. -/
theorem toList_close {block : Vector UInt8 64} {front back : List UInt8} {x : UInt8}
    (h : block.toList = front ++ x :: back) (hlen : front.length = 55) (l : UInt64) :
    (close block l).toList = front ++ (x ||| 0x01) :: (beBytes64 l).toList := by
  have hx : block[55] = x := by
    have hget : block.toList[55]? = (front ++ x :: back)[55]? := by rw [h]
    rw [Vector.getElem?_toList, List.getElem?_append_right (Nat.le_of_eq hlen), hlen] at hget
    exact Option.some.inj hget
  have hset : (front ++ x :: back).set 55 (x ||| 0x01) = front ++ (x ||| 0x01) :: back := by
    rw [List.set_append_right _ _ (Nat.le_of_eq hlen), hlen]
    rfl
  rw [close, toList_overlay _ _ rfl, hx, Vector.toList_set, h, hset, List.append_cons,
    List.take_left' (by rw [List.length_append, hlen]; rfl), List.append_assoc]
  rfl

theorem flatMap_closing {rest : Bytes} (h : rest.size < 64) (l : UInt64) :
    (closing rest l).flatMap Vector.toList
      = rest.toList ++ marks rest.size ++ (beBytes64 l).toList := by
  have hmarked := Bytes.toList_marked h 0x80
  rcases Nat.lt_trichotomy rest.size 55 with hlt | heq | hgt
  · have hzeros : 64 - 1 - rest.size = (118 - rest.size) % 64 + 9 := by omega
    rw [hzeros, ← List.replicate_append_replicate, ← List.cons_append, ← List.append_assoc] at hmarked
    rw [closing, if_pos (by omega), List.flatMap_singleton, toList_close hmarked (by simp; omega),
      marks, if_neg (by omega)]
    simp
  · rw [heq] at hmarked
    rw [closing, if_pos (by omega), List.flatMap_singleton, toList_close hmarked (by simp [heq]),
      marks, if_pos heq, List.append_assoc]
    rfl
  · have hzeros : (118 - rest.size) % 64 = (64 - 1 - rest.size) + 55 := by omega
    have hblank : (Vector.replicate 64 (0 : UInt8)).toList
        = List.replicate 55 0 ++ 0 :: List.replicate 8 0 := by decide
    rw [closing, if_neg (by omega), List.flatMap_cons, List.flatMap_singleton, hmarked,
      toList_close hblank (by decide), marks, if_neg (by omega), hzeros,
      ← List.replicate_append_replicate]
    simp

/-! ### The padded message -/

def bitLength (message : Bytes) : UInt64 := (8 * message.size).toUInt64

def paddedBlocks (message : Bytes) : List (Vector UInt8 64) :=
  message.blocks 64 ++ closing (message.rest 64) (bitLength message)

section Message

variable {message : Bytes} (h : message.size < 2 ^ 61)
include h

theorem toNat_bitLength : (bitLength message).toNat = 8 * message.size := by
  rw [bitLength]
  exact Nat.mod_eq_of_lt (by omega)

theorem bits_paddedBlocks :
    bits ((paddedBlocks message).flatMap Vector.toList) = Standard.pad (bits message.toList) := by
  have hlt := message.size_rest_lt (n := 64) (by decide)
  have hrest := message.size_rest 64
  have hzeros : Standard.paddingZeros (8 * (message.rest 64).size)
      = Standard.paddingZeros (8 * message.size) := by
    unfold Standard.paddingZeros
    omega
  rw [paddedBlocks, List.flatMap_append, flatMap_closing hlt, ← List.append_assoc,
    ← List.append_assoc, Bytes.flatMap_blocks_rest, bits_append, bits_append, bits_marks hlt,
    bits_beBytes64, toNat_bitLength h, hzeros, Standard.pad, length_bits, Array.length_toList]
  simp only [List.append_assoc]

theorem length_pad_div :
    (Standard.pad (bits message.toList)).length / 512 = (paddedBlocks message).length := by
  rw [← bits_paddedBlocks h, length_bits, length_flatMap_toList]
  omega

/-- The words of a block are what its bits write. -/
theorem blockWords_pad {i : Nat} (hi : i < (paddedBlocks message).length) :
    Standard.blockWords (Standard.pad (bits message.toList)) i
      = words32 .big (n := 16) (paddedBlocks message)[i] := by
  apply Vector.ext
  intro j hj
  have hplace : 512 * i + 32 * j = 8 * (64 * i + 4 * j) := by omega
  have hslice : (((paddedBlocks message).flatMap Vector.toList).drop (64 * i + 4 * j)).take 4
      = (slice (paddedBlocks message)[i] (4 * j) 4 (by omega)).toList := by
    rw [toList_slice, ← take_drop_flatMap hi, ← List.drop_drop, List.drop_take, List.take_take,
      Nat.min_eq_left (by omega)]
  rw [Standard.blockWords, words32, Vector.getElem_ofFn, Vector.getElem_ofFn, ← bits_paddedBlocks h,
    hplace, bits_drop, show 32 = 8 * 4 from rfl, bits_take, hslice, ← beWord32_eq_bits]
  rfl

/-! ### Block after block -/

omit h in
/-- The definition's chain value after `n` blocks. -/
def chainAfter (message : Bytes) (n : Nat) : Chain :=
  (List.range n).foldl
    (fun h i => Standard.compress (Vector.replicate 4 0) h
      (Standard.blockWords (Standard.pad (bits message.toList)) i)
      (Standard.counter (8 * message.size) i))
    Sha256.Standard.initialValue

/-- A block compressed with its counter is the next step of the definition. -/
theorem chain_succ {i : Nat} {block : Vector UInt8 64} (hi : (paddedBlocks message)[i]? = some block)
    {counter : UInt64} (hc : counter.toNat = Standard.counter (8 * message.size) i) :
    compress (chainAfter message i) block counter = chainAfter message (i + 1) := by
  obtain ⟨hlt, rfl⟩ := List.getElem?_eq_some_iff.mp hi
  rw [chainAfter, chainAfter, List.range_succ, List.foldl_append, List.foldl_cons, List.foldl_nil,
    compress_eq, hc, blockWords_pad h hlt]

theorem absorb_blocks {n : Nat} (hn : n ≤ message.size / 64) :
    ((message.blocks 64).take n).foldl absorb (initial, 0)
      = (chainAfter message n, (512 * n).toUInt64) := by
  induction n with
  | zero => exact Prod.ext Sha256.initial_eq rfl
  | succ n ih =>
    have hlt : n < (message.blocks 64).length := by rwa [Bytes.length_blocks]
    have hblock : (paddedBlocks message)[n]? = some (message.blocks 64)[n] := by
      rw [paddedBlocks, List.getElem?_append_left hlt, List.getElem?_eq_getElem hlt]
    have hnat : (512 * (n + 1)).toUInt64.toNat = 512 * (n + 1) := Nat.mod_eq_of_lt (by omega)
    have hadd : (512 * n).toUInt64 + 512 = (512 * (n + 1)).toUInt64 :=
      (UInt64.ofNat_add (512 * n) 512).symm
    have hc : (512 * (n + 1)).toUInt64.toNat = Standard.counter (8 * message.size) n := by
      rw [hnat, Standard.counter, if_pos (by omega), Nat.min_eq_right (by omega)]
    rw [List.take_add_one, List.getElem?_eq_getElem hlt, Option.toList_some, List.foldl_append,
      ih (by omega), List.foldl_cons, List.foldl_nil, absorb, hadd, chain_succ h hblock hc]

/-- One block is made of a short rest; if nothing is left, no message bit is in it. -/
theorem finish_of_le (h55 : (message.rest 64).size ≤ 55) :
    finish (chainAfter message (message.size / 64)) (message.rest 64) (bitLength message)
      = chainAfter message (paddedBlocks message).length := by
  have hlen := message.length_blocks 64
  have hpadded : paddedBlocks message
      = message.blocks 64 ++ [close ((message.rest 64).marked 64 0x80) (bitLength message)] := by
    rw [paddedBlocks, closing, if_pos h55]
  have hlast : (paddedBlocks message)[message.size / 64]?
      = some (close ((message.rest 64).marked 64 0x80) (bitLength message)) := by
    rw [hpadded, ← hlen, List.getElem?_concat_length]
  have hc : (if (message.rest 64).isEmpty then 0 else bitLength message).toNat
      = Standard.counter (8 * message.size) (message.size / 64) := by
    have hempty : (message.rest 64).isEmpty = true ↔ message.size % 64 = 0 := by
      rw [Array.isEmpty_iff_size_eq_zero, Bytes.size_rest]
    rw [Standard.counter]
    by_cases h0 : message.size % 64 = 0
    · rw [if_pos (hempty.mpr h0), if_neg (by omega)]
      rfl
    · rw [if_neg (mt hempty.mp h0), if_pos (by omega), toNat_bitLength h,
        Nat.min_eq_left (by omega)]
  rw [finish, if_pos h55, chain_succ h hlast hc, hpadded, List.length_append, hlen]
  rfl

/-- Two blocks are made of a longer rest, and the second is padding alone. -/
theorem finish_of_gt (h55 : 55 < (message.rest 64).size) :
    finish (chainAfter message (message.size / 64)) (message.rest 64) (bitLength message)
      = chainAfter message (paddedBlocks message).length := by
  have hlen := message.length_blocks 64
  have hrest := message.size_rest 64
  have hpadded : paddedBlocks message = message.blocks 64
      ++ [(message.rest 64).marked 64 0x80, close (Vector.replicate 64 0) (bitLength message)] := by
    rw [paddedBlocks, closing, if_neg (Nat.not_le_of_lt h55)]
  have hfirst : (paddedBlocks message)[message.size / 64]?
      = some ((message.rest 64).marked 64 0x80) := by
    rw [hpadded, ← hlen, List.getElem?_append_right (Nat.le_refl _), Nat.sub_self]
    rfl
  have hlast : (paddedBlocks message)[message.size / 64 + 1]?
      = some (close (Vector.replicate 64 0) (bitLength message)) := by
    rw [hpadded, ← hlen, List.getElem?_append_right (Nat.le_add_right _ 1),
      Nat.add_sub_cancel_left]
    rfl
  have hc : (bitLength message).toNat
      = Standard.counter (8 * message.size) (message.size / 64) := by
    rw [Standard.counter, if_pos (by omega), toNat_bitLength h, Nat.min_eq_left (by omega)]
  have h0 : (0 : UInt64).toNat
      = Standard.counter (8 * message.size) (message.size / 64 + 1) := by
    rw [Standard.counter, if_neg (by omega)]
    rfl
  rw [finish, if_neg (Nat.not_le_of_lt h55), chain_succ h hfirst hc, chain_succ h hlast h0,
    hpadded, List.length_append, hlen]
  rfl

/-- The program's chain value after the last block is the definition's. -/
theorem hashValue_eq : Standard.hashValue (bits message.toList)
    = finish ((message.blocks 64).foldl absorb (initial, 0)).1 (message.rest 64)
        (bitLength message) := by
  have hblocks := absorb_blocks h (Nat.le_refl _)
  rw [List.take_of_length_le (Nat.le_of_eq (message.length_blocks 64))] at hblocks
  have hvalue : Standard.hashValue (bits message.toList)
      = chainAfter message (paddedBlocks message).length := by
    rw [Standard.hashValue, length_pad_div h, length_bits, Array.length_toList]
    rfl
  rw [hblocks, hvalue]
  rcases Nat.lt_or_ge 55 (message.rest 64).size with h55 | h55
  · rw [finish_of_gt h h55]
  · rw [finish_of_le h h55]

end Message

/-- On every message that is short enough for its number of bits to be a word of 64 bits, the
digest is BLAKE-256's, padded with as few zeros as leave 447 bits in the last block. -/
theorem hash_is_blake256 {message : Bytes} (h : message.size < 2 ^ 61) :
    hash message = Standard.digest message ∧
      IsLeast {z | (8 * message.size + 1 + z) % 512 = 447}
        (Standard.paddingZeros (8 * message.size)) := by
  refine ⟨?_, Standard.isLeast_paddingZeros _⟩
  rw [Standard.digest, hashValue_eq h, ← Sha256.Standard.bytesOfWords32_eq_serialize]
  rfl

/-- A full block and 56 bytes, so that the padding ends in a block without message bits. -/
theorem hash_is_blake256_spilled :
    let message : Bytes := Array.replicate 120 0xa5
    message.size < 2 ^ 61 ∧ hash message = Standard.digest message := by
  intro message
  have h : message.size < 2 ^ 61 := by simp [message]
  exact ⟨h, (hash_is_blake256 h).1⟩

end ProofOfWork.Finisher.Blake256

import Mathlib.Order.Bounds.Defs
import ProofOfWork.Keccak
import ProofOfWork.Proofs.Digits

/-!
# ProofOfWork.Proofs.Keccak — the hash of a message is the sponge over its padded blocks

The sponge in one piece: the padded message is cut into blocks, and the words of each are added to
the first lanes before the permutation.  A message's full blocks are blocks of the padded one, and
what the hash makes of the rest is the last block (`paddedBlocks_eq`).  The padding can be told apart
from what is before it, whatever that is, so no two messages have the same blocks
(`pad_injective`).
-/

namespace ProofOfWork.Keccak

/-! ### Padding -/

/-- The least multiple of the rate above `n`. -/
def paddedSize (n : Nat) : Nat := (n / 136 + 1) * 136

/-- The first mark, zeros and the last mark in `m` bytes; both marks share a single byte. -/
def padding (m : Nat) : Bytes :=
  if m = 1 then #[0x81] else #[0x01] ++ Array.replicate (m - 2) 0 ++ #[0x80]

def pad (message : Bytes) : Bytes := message ++ padding (paddedSize message.size - message.size)

/-- The padded message, block after block. -/
def paddedBlocks (message : Bytes) : List (Vector UInt8 136) := (pad message).blocks 136

theorem size_padding {m : Nat} (h : 0 < m) : (padding m).size = m := by
  unfold padding
  split
  · simp [*]
  · simp
    omega

theorem size_pad (message : Bytes) : (pad message).size = paddedSize message.size := by
  rw [pad, Array.size_append, size_padding (by unfold paddedSize; omega)]
  unfold paddedSize
  omega

theorem isLeast_paddedSize (n : Nat) : IsLeast {m | 136 ∣ m ∧ n < m} (paddedSize n) := by
  unfold paddedSize
  refine ⟨⟨Nat.dvd_mul_left 136 _, by omega⟩, ?_⟩
  rintro m ⟨⟨q, rfl⟩, hlt⟩
  omega

/-- The bytes of a padding, from the first to the last. -/
theorem getElem?_padding {m j : Nat} (h : j < m) : (padding m)[j]?
    = some ((if j = 0 then 0x01 else 0) ||| (if j + 1 = m then 0x80 else 0)) := by
  unfold padding
  split
  next h1 =>
    obtain rfl : j = 0 := by omega
    subst h1
    rfl
  next h1 =>
    rcases Nat.eq_zero_or_pos j with rfl | h0
    · rw [if_neg (show ¬ 0 + 1 = m by omega)]
      simp
    · simp only [Array.getElem?_append, Array.getElem?_replicate, if_neg (Nat.ne_of_gt h0)]
      simp
      grind

/-- Where two messages of different lengths end, one padded message has its first mark and the other
has none. -/
theorem pad_ne_of_size_lt {x y : Bytes} (h : y.size < x.size) : pad x ≠ pad y := by
  intro hpad
  have hsize : paddedSize x.size = paddedSize y.size := by rw [← size_pad, ← size_pad, hpad]
  have hlt : x.size < paddedSize x.size := (isLeast_paddedSize x.size).1.2
  have hx : (pad x)[x.size]?
      = some (0x01 ||| if 0 + 1 = paddedSize x.size - x.size then 0x80 else 0) := by
    rw [pad, Array.getElem?_append_right (Nat.le_refl _), Nat.sub_self,
      getElem?_padding (by omega), if_pos rfl]
  have hy : (pad y)[x.size]?
      = some (0 ||| if x.size - y.size + 1 = paddedSize y.size - y.size then 0x80 else 0) := by
    rw [pad, Array.getElem?_append_right (Nat.le_of_lt h), getElem?_padding (by omega),
      if_neg (Nat.sub_ne_zero_of_lt h)]
  rw [hpad, hy, Option.some.injEq] at hx
  split at hx <;> split at hx <;> revert hx <;> decide

theorem pad_injective : Function.Injective pad := by
  intro x y hpad
  rcases Nat.lt_trichotomy x.size y.size with h | h | h
  · exact absurd hpad.symm (pad_ne_of_size_lt h)
  · exact (Array.append_inj hpad h).1
  · exact absurd hpad (pad_ne_of_size_lt h)

theorem flatMap_paddedBlocks (message : Bytes) :
    (paddedBlocks message).flatMap Vector.toList = (pad message).toList := by
  apply Bytes.flatMap_blocks
  rw [size_pad]
  exact Nat.mul_mod_left _ 136

theorem paddedBlocks_injective : Function.Injective paddedBlocks := by
  intro x y h
  apply pad_injective
  apply Array.toList_inj.mp
  rw [← flatMap_paddedBlocks, h, flatMap_paddedBlocks]

/-! ### The last block -/

theorem toList_lastBlock {rest : Bytes} (h : rest.size < 136) :
    (lastBlock rest).toList = rest.toList ++ (padding (136 - rest.size)).toList := by
  have hlen : (padding (136 - rest.size)).size = 136 - rest.size := size_padding (by omega)
  apply List.ext_getElem?
  intro i
  rw [Vector.getElem?_toList, List.getElem?_append, Array.length_toList, Array.getElem?_toList,
    Array.getElem?_toList]
  split
  next hi =>
    rw [Vector.getElem?_eq_getElem (by omega), Array.getElem?_eq_getElem hi, lastBlock,
      Vector.getElem_set_ne _ _ (by omega), Bytes.marked, Vector.getElem_ofFn, dif_pos hi]
  next hi =>
    by_cases hend : i < 136
    · rw [getElem?_padding (by omega), Vector.getElem?_eq_getElem hend, lastBlock,
        Vector.getElem_set]
      simp only [Bytes.marked, Vector.getElem_ofFn, dif_neg hi]
      grind
    · rw [Vector.getElem?_eq_none (by omega), Array.getElem?_eq_none (by omega)]

theorem paddedBlocks_eq (message : Bytes) :
    paddedBlocks message = message.blocks 136 ++ [lastBlock (message.rest 136)] := by
  apply Bytes.blocks_eq (by decide)
  have hrest := message.size_rest 136
  have hlt := message.size_rest_lt (n := 136) (by decide)
  rw [List.flatMap_append, List.flatMap_singleton, toList_lastBlock hlt, ← List.append_assoc,
    Bytes.flatMap_blocks_rest, pad, Array.toList_append, hrest]
  congr 3
  unfold paddedSize
  omega

/-! ### The sponge -/

/-- Word `i` of a block: the number that its eight bytes write, the first one lowest. -/
def wordOf (block : Vector UInt8 136) (i : Nat) : UInt64 :=
  (Nat.ofDigits 256 (((block.toList.drop (8 * i)).take 8).map UInt8.toNat)).toUInt64

/-- The seventeen words of a block are added to the first lanes. -/
def addBlock (a : State) (block : Vector UInt8 136) : State :=
  Vector.ofFn fun i => if i.val < 17 then a.get i ^^^ wordOf block i else a.get i

/-- From zero, block after block, with `f` after each. -/
def sponge (f : State → State) (blocks : List (Vector UInt8 136)) : State :=
  blocks.foldl (fun a block => f (addBlock a block)) (Vector.replicate 25 0)

theorem lane_lt (i : Fin 200) : i.val / 8 < 25 := by omega

/-- The lanes one after the other, each with its lowest byte first. -/
def serialize (a : State) : Vector UInt8 200 :=
  Vector.ofFn fun i => ((a.get ⟨i.val / 8, lane_lt i⟩).toNat / 256 ^ (i.val % 8)).toUInt8

theorem getElem_words64_eq (block : Vector UInt8 136) {i : Nat} (h : i < 17) :
    (words64 (n := 17) block)[i] = wordOf block i := by
  have hslice := toList_slice block (8 * i) 8 (by omega)
  rw [words64, Vector.getElem_ofFn, wordOf, ← hslice]
  change _ = (littleNumber _).toUInt64
  rw [← toNat_leWord64]
  exact UInt64.ofNat_toNat.symm

theorem absorb_eq (a : State) (block : Vector UInt8 136) :
    absorb a block = permute (addBlock a block) := by
  apply congrArg permute
  rw [addBlock]
  apply Vector.ext
  intro i hi
  rw [Vector.getElem_ofFn, Vector.getElem_ofFn]
  split
  next h => rw [getElem_words64_eq block h]; rfl
  next h => rfl

theorem hash_eq_sponge (message : Bytes) : hash message = sponge permute (paddedBlocks message) := by
  rw [paddedBlocks_eq, sponge, List.foldl_append, hash]
  simp only [← absorb_eq]
  rfl

theorem toBytes_eq_serialize (a : State) : toBytes a = serialize a := by
  apply Vector.ext
  intro i hi
  rw [toBytes, bytesOfWords64, serialize, Vector.getElem_ofFn, Vector.getElem_ofFn,
    getElem_leBytes64]
  rfl

/-- The hash of a message is the sponge at rate 136 over its padded blocks, whatever the message's
length: the marks and the zeros between them fill it up to the least multiple of 136 above its
length, cut into blocks it is the padded message still, and no two messages have the same blocks. -/
theorem hash_is_sponge :
    (∀ message, toBytes (hash message) = serialize (sponge permute (paddedBlocks message))) ∧
    (∀ message, (paddedBlocks message).flatMap Vector.toList = (pad message).toList) ∧
    (∀ message, IsLeast {m | 136 ∣ m ∧ message.size < m} (pad message).size) ∧
    Function.Injective paddedBlocks := by
  refine ⟨fun message => ?_, flatMap_paddedBlocks, fun message => ?_, paddedBlocks_injective⟩
  · rw [hash_eq_sponge, toBytes_eq_serialize]
  · rw [size_pad]
    exact isLeast_paddedSize message.size

end ProofOfWork.Keccak

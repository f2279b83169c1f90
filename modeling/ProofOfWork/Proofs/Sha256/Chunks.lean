import Mathlib.Tactic.Choose
import ProofOfWork.Proofs.Blocks
import ProofOfWork.Proofs.Digits
import ProofOfWork.Proofs.Lanes.Buffer
import ProofOfWork.Proofs.Sha256.Rounds

/-!
# ProofOfWork.Proofs.Sha256.Chunks — chunk after chunk, each lane hashes its own message

A chunk gives lane `i` the block at `64 * i` (`loadRing_spec`), so that it takes the lane one block
further in the standard's chain.  The message of a lane is its blocks of all chunks joined
(`laneStream`), and by induction on the number of chunks its state is the standard's hash value of
it (`processChunks_spec`).
-/

namespace ProofOfWork

namespace Sha256

open Lanes

/-! ### The message of a lane -/

/-- The message of lane `i`: its blocks of all chunks, one after the other. -/
def laneStream (way : Nat) (blocks : Bytes) (count i : Nat) : Bytes :=
  (Array.range count).flatMap fun c =>
    blocks.extract (64 * way * c + 64 * i) (64 * way * c + 64 * i + 64)

theorem laneStream_succ (way : Nat) (blocks : Bytes) (count i : Nat) :
    laneStream way blocks (count + 1) i = laneStream way blocks count i
      ++ blocks.extract (64 * way * count + 64 * i) (64 * way * count + 64 * i + 64) := by
  rw [laneStream, Array.range_succ, Array.flatMap_append, Array.flatMap_singleton]
  rfl

section Stream

variable {way count : Nat} {blocks : Bytes} {i : Nat} (hi : i < way)
include hi

/-- The block of lane `i` in chunk `count` ends before the next chunk. -/
theorem laneBlock_le (count : Nat) : 64 * way * count + 64 * i + 64 ≤ 64 * way * (count + 1) := by
  rw [Nat.mul_succ]
  omega

theorem size_laneStream (h : 64 * way * count ≤ blocks.size) :
    (laneStream way blocks count i).size = 64 * count := by
  induction count with
  | zero => rfl
  | succ count ih =>
    have := laneBlock_le hi count
    rw [laneStream_succ, Array.size_append, ih (by omega), Array.size_extract]
    omega

/-- One chunk more is one block more. -/
theorem blocks_laneStream_succ (h : 64 * way * (count + 1) ≤ blocks.size) :
    ∃ b : Block, blocks.extract (64 * way * count + 64 * i) (64 * way * count + 64 * i + 64)
        = b.toArray ∧
      (laneStream way blocks (count + 1) i).blocks 64
        = (laneStream way blocks count i).blocks 64 ++ [b] := by
  have hend := laneBlock_le hi count
  have hfull : (laneStream way blocks count i).size % 64 = 0 := by
    rw [size_laneStream hi (by omega)]
    omega
  let pos := 64 * way * count + 64 * i
  let b : Block := ⟨blocks.extract pos (pos + 64), by rw [Array.size_extract]; omega⟩
  refine ⟨b, rfl, ?_⟩
  rw [laneStream_succ]
  exact Bytes.blocks_append_block _ (by decide) hfull b

end Stream

/-- A message of one lane is that lane's. -/
theorem laneStream_one {message : Bytes} {count : Nat} (h : 64 * count ≤ message.size) :
    laneStream 1 message count 0 = message.extract 0 (64 * count) := by
  induction count with
  | zero => simp [laneStream]
  | succ count ih =>
    rw [laneStream_succ, ih (by omega), show 64 * 1 * count + 64 * 0 = 64 * count by omega,
      Array.extract_append_extract, Nat.min_eq_left (by omega), Nat.max_eq_right (by omega)]
    rfl

/-! ### The words of a block -/

/-- Reading every place of a range yields what each place yields. -/
theorem mapM_range_of_ok {ε α : Type} {n : Nat} {f : Nat → Except ε α} {g : Fin n → α}
    (h : ∀ i : Fin n, f i = .ok (g i)) : (Vector.range n).mapM f = .ok (Vector.ofFn g) := by
  have hrange : Vector.range n = (Vector.ofFn fun i : Fin n => i).map Fin.val := by
    apply Vector.ext
    intro i hi
    simp
  have hpure : f ∘ Fin.val = fun i : Fin n => pure (g i) := funext h
  rw [hrange, Vector.mapM_map, hpure, Vector.mapM_pure, Vector.map_ofFn]
  rfl

section BlockWords

variable {buf : Bytes} {pos : Nat} {b : Block} (hb : buf.extract pos (pos + 64) = b.toArray)
include hb

theorem block_le_size : pos + 64 ≤ buf.size := by
  have hsize := congrArg Array.size hb
  rw [Array.size_extract, Vector.size_toArray] at hsize
  omega

theorem getElem_of_block {k : Nat} (hk : k < 64) (hin : pos + k < buf.size) :
    buf[pos + k] = b[k] := by
  have hsize := block_le_size hb
  have hget : (buf.extract pos (pos + 64))[k]? = b.toArray[k]? := by rw [hb]
  rw [Array.getElem?_extract_of_lt (by omega),
    Array.getElem?_eq_getElem (by rwa [Vector.size_toArray])] at hget
  exact Option.some.inj hget

/-- A word of the buffer is the standard's reading of the block it is in. -/
theorem wordAt?_of_block (t : Fin 16) :
    wordAt? .big buf (pos + 4 * t) = some (Standard.wordAt b t) := by
  have hsize := block_le_size hb
  have hin : pos + 4 * t.val + 4 ≤ buf.size := by omega
  have hbyte (k : Nat) (hk : k < 64) : buf[pos + k] = b[k] := getElem_of_block hb hk (by omega)
  have hslice : slice buf.toVector (pos + 4 * t) 4 hin
      = #v[b[4 * t.val], b[4 * t.val + 1], b[4 * t.val + 2], b[4 * t.val + 3]] := by
    simp only [← hbyte (4 * t) (by omega), ← hbyte (4 * t + 1) (by omega),
      ← hbyte (4 * t + 2) (by omega), ← hbyte (4 * t + 3) (by omega)]
    rfl
  rw [wordAt?, dif_pos hin, hslice, Option.some.injEq]
  change beWord32 _ = _
  rw [beWord32_eq, Standard.wordAt]
  change ((((0 * 256 + b[4 * t.val].toNat) * 256 + b[4 * t.val + 1].toNat) * 256
    + b[4 * t.val + 2].toNat) * 256 + b[4 * t.val + 3].toNat).toUInt32 = _
  rw [Nat.zero_mul, Nat.zero_add]

end BlockWords

section Chunk

variable {u : LaneUnit} (hu : u.Lanewise)
include hu

theorem loadRing_spec {chunk : Bytes} (h : 64 * u.way ≤ chunk.size) (hc : Addressable chunk) :
    ∃ w, loadRing u chunk = .ok w ∧ ∀ (i : Fin u.way) (b : Block),
      chunk.extract (64 * i) (64 * i + 64) = b.toArray →
        w.map (u.lane i) = Vector.ofFn (Standard.wordAt b) := by
  have hload (t : Fin 16) : ∃ g, u.load .big ⟨64, 4 * t⟩ chunk = .ok g ∧
      ∀ i : Fin u.way, wordAt? .big chunk (4 * t + i * 64) = some (u.lane i g) := by
    refine hu.load .big (fun i hi => ?_) hc
    have ht := t.isLt
    simp only [Span.address]
    omega
  choose g hg hword using hload
  refine ⟨Vector.ofFn g, mapM_range_of_ok hg, fun i b hb => ?_⟩
  apply Vector.ext
  intro t ht
  rw [Vector.getElem_map, Vector.getElem_ofFn, Vector.getElem_ofFn]
  apply Option.some.inj
  rw [← hword ⟨t, ht⟩ i, ← wordAt?_of_block hb]
  congr 1
  simp only
  omega

/-- A chunk takes every lane one block further. -/
theorem processBlock_spec {chunk : Bytes} (h : 64 * u.way ≤ chunk.size) (hc : Addressable chunk)
    (s : State u) : ∃ r, processBlock u s chunk = .ok r ∧ ∀ (i : Fin u.way) (b : Block),
      chunk.extract (64 * i) (64 * i + 64) = b.toArray →
        r.map (u.lane i) = Standard.compress (s.map (u.lane i)) b := by
  obtain ⟨w, hw, hring⟩ := loadRing_spec hu h hc
  refine ⟨compress u s w, ?_, fun i b hb => lane_compress hu i (hring i b hb) s⟩
  rw [processBlock, if_neg (by omega), hw]
  rfl

omit hu in
theorem chunkAt_spec {blocks : Bytes} {count : Nat} (h : 64 * u.way * (count + 1) ≤ blocks.size)
    (hb : Addressable blocks) : (chunkAt u blocks count).size = 64 * u.way ∧
      Addressable (chunkAt u blocks count) ∧ ∀ i : Fin u.way,
        (chunkAt u blocks count).extract (64 * i) (64 * i + 64) = blocks.extract
          (64 * u.way * count + 64 * i) (64 * u.way * count + 64 * i + 64) := by
  rw [Nat.mul_succ] at h
  have hcomm : count * (64 * u.way) = 64 * u.way * count := Nat.mul_comm ..
  have hsize : (chunkAt u blocks count).size = 64 * u.way := by
    rw [chunkAt, Array.size_extract]
    omega
  refine ⟨hsize, ?_, fun i => ?_⟩
  · rw [Addressable] at hb ⊢
    omega
  · have hi := i.isLt
    rw [chunkAt, Array.extract_extract, hcomm, Nat.min_eq_left (by omega), Nat.add_assoc]

theorem lane_start (i : Fin u.way) : (start u).map (u.lane i) = Standard.initialValue := by
  rw [← initial_eq, start, Vector.map_map]
  apply Vector.ext
  intro j hj
  simp only [Vector.getElem_map, Function.comp_apply, hu.broadcast]

/-- After any number of chunks a lane holds the hash value of its message so far. -/
theorem processChunks_spec {blocks : Bytes} {count : Nat} (h : 64 * u.way * count ≤ blocks.size)
    (hb : Addressable blocks) : ∃ s, processChunks u blocks count = .ok s ∧ ∀ i : Fin u.way,
      s.map (u.lane i) = Standard.hashValue ((laneStream u.way blocks count i).blocks 64) := by
  induction count with
  | zero =>
    refine ⟨start u, rfl, fun i => ?_⟩
    have hnil : (laneStream u.way blocks 0 i).blocks 64 = [] := Bytes.blocks_empty 64
    rw [lane_start hu, hnil]
    rfl
  | succ count ih =>
    have hle : 64 * u.way * count ≤ blocks.size :=
      Nat.le_trans (Nat.mul_le_mul_left _ (Nat.le_succ count)) h
    obtain ⟨s, hs, hlane⟩ := ih hle
    obtain ⟨hsize, haddr, hblock⟩ := chunkAt_spec h hb
    obtain ⟨r, hr, hstep⟩ := processBlock_spec hu (Nat.le_of_eq hsize.symm) haddr s
    refine ⟨r, ?_, fun i => ?_⟩
    · rw [processChunks] at hs ⊢
      rw [List.range_succ, List.foldlM_append, hs]
      change processBlock u s (chunkAt u blocks count) >>= pure = _
      rw [hr]
      rfl
    · obtain ⟨b, hb, hblocks⟩ := blocks_laneStream_succ i.isLt h
      rw [hstep i b ((hblock i).trans hb), hblocks, hlane i, Standard.hashValue_append]

end Chunk

end Sha256
end ProofOfWork

import ProofOfWork.Bytes

/-!
# ProofOfWork.Proofs.Blocks — a message cut into blocks

The blocks of a message put together, with the rest behind them, are the message
(`flatMap_blocks_rest`); and blocks of one size put together can be cut in one way only
(`flatMap_toList_injective`).
-/

namespace ProofOfWork

/-! ### Slices -/

theorem toList_slice {n : Nat} (v : Vector UInt8 n) (i k : Nat) (h : i + k ≤ n) :
    (slice v i k h).toList = (v.toList.drop i).take k := by
  apply List.ext_getElem
  · simp
    omega
  · intro j h1 h2
    simp [slice]

/-- Bytes that are laid over the end stand there. -/
theorem toList_overlay {n i : Nat} (v : Vector UInt8 n) (w : Vector UInt8 8) (h : i + 8 = n) :
    (overlay v i w).toList = v.toList.take i ++ w.toList := by
  have hlen : (v.toList.take i).length = i := by
    simp
    omega
  apply List.ext_getElem
  · simp
    omega
  · intro j hj _
    have hn : j < n := by simpa using hj
    simp only [overlay, Vector.getElem_toList, Vector.getElem_ofFn]
    by_cases hji : j < i
    · rw [dif_neg (by omega), List.getElem_append_left (by omega), List.getElem_take,
        Vector.getElem_toList]
      rfl
    · rw [dif_pos (by omega), List.getElem_append_right (by omega), Vector.getElem_toList]
      simp only [hlen]

/-! ### Blocks -/

/-- Blocks of one size have one way of being put together. -/
theorem flatMap_toList_injective {α : Type} {n : Nat} (hn : 0 < n) :
    Function.Injective fun bs : List (Vector α n) => bs.flatMap Vector.toList := by
  intro bs
  induction bs with
  | nil =>
    intro cs h
    cases cs with
    | nil => rfl
    | cons v cs =>
      have hlen := congrArg List.length h
      simp at hlen
      omega
  | cons u bs ih =>
    intro cs h
    cases cs with
    | nil =>
      have hlen := congrArg List.length h
      simp at hlen
      omega
    | cons v cs =>
      obtain ⟨huv, hrest⟩ := List.append_inj h (by simp)
      rw [Vector.toList_inj.mp huv, ih hrest]

theorem length_flatMap_toList {α : Type} {n : Nat} (bs : List (Vector α n)) :
    (bs.flatMap Vector.toList).length = n * bs.length := by
  simp [List.length_flatMap, List.map_const', Nat.mul_comm]

/-- Blocks put together still stand one after the other. -/
theorem take_drop_flatMap {α : Type} {n i : Nat} {bs : List (Vector α n)} (h : i < bs.length) :
    ((bs.flatMap Vector.toList).drop (n * i)).take n = bs[i].toList := by
  have hlen : ((bs.take i).flatMap Vector.toList).length = n * i := by
    rw [length_flatMap_toList, List.length_take, Nat.min_eq_left (Nat.le_of_lt h)]
  have hsplit : bs.flatMap Vector.toList = (bs.take i).flatMap Vector.toList
      ++ (bs[i].toList ++ (bs.drop (i + 1)).flatMap Vector.toList) := by
    rw [← List.flatMap_cons, ← List.flatMap_append, ← List.drop_eq_getElem_cons h,
      List.take_append_drop]
  rw [hsplit, List.drop_left' hlen, List.take_left' Vector.length_toList]

namespace Bytes

theorem size_rest (b : Bytes) (n : Nat) : (b.rest n).size = b.size % n := by
  have := Nat.div_add_mod' b.size n
  rw [rest, Array.size_extract]
  omega

theorem length_blocks (b : Bytes) (n : Nat) : (b.blocks n).length = b.size / n := by
  simp [blocks]

theorem blocks_empty (n : Nat) : Bytes.blocks #[] n = [] :=
  List.eq_nil_of_length_eq_zero ((length_blocks #[] n).trans (Nat.zero_div n))

/-- A block is the bytes at its place. -/
theorem toArray_getElem_blocks (b : Bytes) {n c : Nat} (h : c < (b.blocks n).length) :
    (b.blocks n)[c].toArray = b.extract (c * n) (c * n + n) := by
  have hin : c * n + n ≤ b.size := block_in_range (by rwa [length_blocks] at h)
  apply Array.ext
  · rw [Vector.size_toArray, Array.size_extract, Nat.min_eq_left hin]
    omega
  · intro j _ _
    simp [blocks, block, slice]

theorem flatMap_take_blocks (b : Bytes) {n m : Nat} (h : m ≤ b.size / n) :
    ((b.blocks n).take m).flatMap Vector.toList = b.toList.take (m * n) := by
  induction m with
  | zero => simp
  | succ m ih =>
    have hm : m < (b.blocks n).length := by rwa [length_blocks]
    have hblock : (b.blocks n)[m].toList = (b.toList.drop (m * n)).take n := by
      have hbytes := congrArg Array.toList (toArray_getElem_blocks b hm)
      rw [Array.toList_extract, List.extract_eq_take_drop, Nat.add_sub_cancel_left] at hbytes
      exact hbytes
    rw [List.take_add_one, List.getElem?_eq_getElem hm, Option.toList_some, List.flatMap_append,
      ih (by omega), List.flatMap_singleton, hblock, ← List.take_add, Nat.succ_mul]

/-- A message is its blocks and its rest. -/
theorem flatMap_blocks_rest (b : Bytes) (n : Nat) :
    (b.blocks n).flatMap Vector.toList ++ (b.rest n).toList = b.toList := by
  have hall := flatMap_take_blocks b (n := n) (Nat.le_refl _)
  rw [List.take_of_length_le (Nat.le_of_eq (length_blocks b n))] at hall
  have hrest : (b.rest n).toList = b.toList.drop (b.size / n * n) := by
    rw [rest, Array.toList_extract, List.extract_eq_take_drop]
    exact List.take_of_length_le (by simp)
  rw [hall, hrest, List.take_append_drop]

/-- A message of full blocks has no rest. -/
theorem flatMap_blocks {b : Bytes} {n : Nat} (h : b.size % n = 0) :
    (b.blocks n).flatMap Vector.toList = b.toList := by
  have hrest : (b.rest n).toList = [] := by
    apply List.eq_nil_of_length_eq_zero
    rw [Array.length_toList, size_rest, h]
  rw [← flatMap_blocks_rest b n, hrest, List.append_nil]

/-- Blocks put together are cut where they were joined. -/
theorem blocks_eq {b : Bytes} {n : Nat} (hn : 0 < n) {bs : List (Vector UInt8 n)}
    (h : b.toList = bs.flatMap Vector.toList) : b.blocks n = bs := by
  have hsize : b.size = bs.length * n := by
    rw [← Array.length_toList, h, length_flatMap_toList, Nat.mul_comm]
  apply flatMap_toList_injective hn
  dsimp only
  rw [flatMap_blocks (by rw [hsize, Nat.mul_mod_left]), h]

/-- A block put after full blocks is the last one. -/
theorem blocks_append_block (b : Bytes) {n : Nat} (hn : 0 < n) (hb : b.size % n = 0)
    (v : Vector UInt8 n) : (b ++ v.toArray).blocks n = b.blocks n ++ [v] := by
  apply blocks_eq hn
  rw [Array.toList_append, List.flatMap_append, flatMap_blocks hb, List.flatMap_singleton]
  rfl

/-- A rest with its mark is followed by zeros. -/
theorem toList_marked {rest : Bytes} {n : Nat} (h : rest.size < n) (mark : UInt8) :
    (marked rest n mark).toList
      = rest.toList ++ mark :: List.replicate (n - 1 - rest.size) 0 := by
  apply List.ext_getElem
  · simp
    omega
  · intro i _ _
    simp only [marked, Vector.getElem_toList, Vector.getElem_ofFn, List.getElem_append,
      Array.length_toList, Array.getElem_toList, List.getElem_cons, List.getElem_replicate]
    grind

end Bytes

end ProofOfWork

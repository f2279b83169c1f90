import ProofOfWork.Proofs.Digits
import ProofOfWork.Proofs.Line
import ProofOfWork.Scratchpad

/-!
# ProofOfWork.Proofs.StateBytes — lines and states against their bytes

Sixteen bytes are those of the line that they are read as, and for a state of 200 bytes reading and
writing undo each other.  Line `i` of a state is what its sixteen bytes from byte `16 * i` on are
read as.
-/

namespace ProofOfWork

/-! ### Slices -/

section Slice

variable {n : Nat} (v : Vector UInt8 n)

theorem getElem_slice {i k j : Nat} (h : i + k ≤ n) (hj : j < k) :
    (slice v i k h)[j] = v[i + j] := by
  rw [slice, Vector.getElem_ofFn]

theorem slice_slice {i k j m : Nat} (h : i + k ≤ n) (hm : j + m ≤ k) (him : i + j + m ≤ n) :
    slice (slice v i k h) j m hm = slice v (i + j) m him := by
  apply Vector.ext
  intro l hl
  simp only [slice, Vector.getElem_ofFn, Nat.add_assoc]

end Slice

/-! ### Lines -/

namespace Line

theorem bytes_ofBytes (b : Vector UInt8 16) : (ofBytes b).bytes = b := by
  rw [ofBytes, bytes, leBytes64_leWord64, leBytes64_leWord64]
  apply Vector.ext
  intro k hk
  rw [Vector.getElem_append]
  split
  next h => rw [getElem_slice]; simp only [Nat.zero_add]
  next h => rw [getElem_slice]; simp only [Nat.add_sub_cancel' (Nat.le_of_not_lt h)]

end Line

/-! ### States -/

namespace Keccak

theorem toBytes_ofBytes (b : Vector UInt8 200) : toBytes (ofBytes b) = b := by
  apply Vector.ext
  intro k hk
  rw [toBytes, bytesOfWords64, Vector.getElem_ofFn]
  simp only [ofBytes, words64, Vector.getElem_ofFn, leBytes64_leWord64, getElem_slice,
    Nat.div_add_mod]

theorem slice_toBytes (s : State) {i : Nat} (hi : i < 25) (h : 8 * i + 8 ≤ 200) :
    slice (toBytes s) (8 * i) 8 h = leBytes64 s[i] := by
  apply Vector.ext
  intro k hk
  rw [getElem_slice _ _ hk, toBytes, bytesOfWords64, Vector.getElem_ofFn]
  simp only [Nat.mul_add_div (show 8 > 0 by decide), Nat.mul_add_mod, Nat.div_eq_of_lt hk,
    Nat.mod_eq_of_lt hk, Nat.add_zero]

theorem ofBytes_toBytes (s : State) : ofBytes (toBytes s) = s := by
  apply Vector.ext
  intro k hk
  rw [ofBytes, words64, Vector.getElem_ofFn]
  rw [slice_toBytes s hk, leWord64_leBytes64]

/-- A line of a state is read from its sixteen bytes. -/
theorem line_ofBytes (b : Vector UInt8 200) (i : Fin 12) {p : Nat} (hp : p = 16 * i.val)
    (h : p + 16 ≤ 200) : (ofBytes b).line i = Line.ofBytes (slice b p 16 h) := by
  subst hp
  have hword {j k : Nat} (hj : j < 25) (hk : k + 8 ≤ 16) (hplace : 8 * j = 16 * i.val + k) :
      (ofBytes b)[j] = leWord64 (slice (slice b (16 * i.val) 16 h) k 8 hk) := by
    rw [slice_slice _ _ _ (by omega), ofBytes, words64, Vector.getElem_ofFn]
    simp only [hplace]
  have hi := i.isLt
  apply Line.ext_halves
  · exact hword (by omega) (by decide) (by omega)
  · exact hword (by omega) (by decide) (by omega)

theorem line_eq (s : State) (i : Fin 12) {p : Nat} (hp : p = 16 * i.val) (h : p + 16 ≤ 200) :
    s.line i = Line.ofBytes (slice (toBytes s) p 16 h) := by
  rw [← line_ofBytes (toBytes s) i hp h, ofBytes_toBytes]

end Keccak

/-! ### Keys -/

theorem Aes.roundKeys?_toArray (v : Vector UInt8 32) (hlo : 0 + 16 ≤ 32) (hhi : 16 + 16 ≤ 32) :
    roundKeys? v.toArray
      = some (expandKey (Line.ofBytes (slice v 0 16 hlo)) (Line.ofBytes (slice v 16 16 hhi))) := by
  have hsize : v.toArray.size = 32 := v.size_toArray
  have hslice {i : Nat} (h : i + 16 ≤ v.toArray.size) (h' : i + 16 ≤ 32) :
      slice v.toArray.toVector i 16 h = slice v i 16 h' := by
    apply Vector.ext
    intro j hj
    rw [getElem_slice, getElem_slice]
    simp
  rw [roundKeys?, dif_pos (Nat.le_of_eq hsize.symm), hslice _ hlo, hslice _ hhi]

end ProofOfWork

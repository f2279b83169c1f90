import Mathlib.LinearAlgebra.Matrix.NonsingularInverse
import ProofOfWork.Proofs.Aes.Algebraic
import ProofOfWork.Proofs.Aes.Decrypt

/-!
# ProofOfWork.Proofs.Aes.Inverse — ten rounds as a permutation of lines

To mix a column back is to multiply it by a second circulant matrix (`element_row_invMixColumn`).
Every vector of the field is the column of some four bytes, and a column that is mixed and mixed back
is what it was; so the second matrix is the inverse of the first, without a product of entries being
worked out (`inv_mixMatrix`).  The other steps of the round backwards are read off the rows and columns
of a line (`stateByte_decrypt`), and ten of them undo ten rounds in either order.
-/

namespace ProofOfWork.Aes

/-! ### The inverse matrix -/

/-- The circulant matrix of (14, 11, 13, 9). -/
noncomputable def invMixMatrix : Matrix (Fin 4) (Fin 4) ByteField := circulant #v[14, 11, 13, 9]

theorem element_invMixByte (a b c d : UInt8) : element (invMixByte a b c d)
    = element 14 * element a + element 11 * element b + element 13 * element c
      + element 9 * element d := by
  -- a factor is what its multiplication makes of one
  have h14 : element 14 = element (times14 1) := rfl
  have h11 : element 11 = element (times11 1) := rfl
  have h13 : element 13 = element (times13 1) := rfl
  have h9 : element 9 = element (times9 1) := rfl
  rw [h14, h11, h13, h9]
  simp only [invMixByte, times9, times11, times13, times14, element_xor, element_double, element_one]
  ring

theorem element_row_invMixColumn (s : Fin 4 → UInt8) (r : Fin 4) :
    element (row r (invMixColumn (column (s 0) (s 1) (s 2) (s 3))))
      = ∑ i, invMixMatrix r i * element (s i) := by
  have hrow : row r (invMixColumn (column (s 0) (s 1) (s 2) (s 3)))
      = invMixByte (s r) (s (r + 1)) (s (r + 2)) (s (r + 3)) := by
    rw [invMixColumn_column, row_column]
    obtain rfl | rfl | rfl | rfl : r = 0 ∨ r = 1 ∨ r = 2 ∨ r = 3 := by omega
    all_goals rfl
  rw [hrow, element_invMixByte, invMixMatrix, sum_circulant _ (fun i => element (s i))]
  rfl

/-! ### Columns as vectors of the field -/

/-- The bytes of a column in the field. -/
noncomputable def vectorOf (c : UInt32) : Fin 4 → ByteField := fun r => element (row r c)

theorem vectorOf_surjective : Function.Surjective vectorOf := by
  intro v
  refine ⟨column (byteEquiv.symm (v 0)) (byteEquiv.symm (v 1)) (byteEquiv.symm (v 2))
    (byteEquiv.symm (v 3)), ?_⟩
  funext r
  rw [vectorOf, row_column]
  match r with
  | 0 => exact byteEquiv.apply_symm_apply (v 0)
  | 1 => exact byteEquiv.apply_symm_apply (v 1)
  | 2 => exact byteEquiv.apply_symm_apply (v 2)
  | 3 => exact byteEquiv.apply_symm_apply (v 3)

theorem mulVec_mixMatrix (c : UInt32) :
    mixMatrix.mulVec (vectorOf c) = vectorOf (mixColumn c) := by
  funext r
  have hrow := element_row_mixColumn (fun i => row i c) r
  rw [column_rows] at hrow
  exact hrow.symm

theorem mulVec_invMixMatrix (c : UInt32) :
    invMixMatrix.mulVec (vectorOf c) = vectorOf (invMixColumn c) := by
  funext r
  have hrow := element_row_invMixColumn (fun i => row i c) r
  rw [column_rows] at hrow
  exact hrow.symm

/-- A column that is mixed and mixed back is the same column, whatever it is. -/
theorem invMixMatrix_mul_mixMatrix : invMixMatrix * mixMatrix = 1 := by
  apply Matrix.mulVec_injective
  funext v
  obtain ⟨c, rfl⟩ := vectorOf_surjective v
  rw [← Matrix.mulVec_mulVec, mulVec_mixMatrix, mulVec_invMixMatrix, invMixColumn_mixColumn,
    Matrix.one_mulVec]

theorem inv_mixMatrix : mixMatrix⁻¹ = invMixMatrix :=
  Matrix.inv_eq_left_inv invMixMatrix_mul_mixMatrix

/-! ### The round backwards, byte by byte -/

theorem stateColumn_onColumns (f : UInt32 → UInt32) (x : Line) (c : Fin 4) :
    stateColumn (onColumns f x) c = f (stateColumn x c) := by
  rw [onColumns, stateColumn_ofWords]
  obtain rfl | rfl | rfl | rfl : c = 0 ∨ c = 1 ∨ c = 2 ∨ c = 3 := by omega
  all_goals rfl

theorem stateByte_xor (x y : Line) (r c : Fin 4) :
    stateByte (x ^^^ y) r c = stateByte x r c ^^^ stateByte y r c := by
  simp only [stateByte_eq, ← row_xor]
  congr 1
  match c with
  | 0 => exact Line.word0_xor ..
  | 1 => exact Line.word1_xor ..
  | 2 => exact Line.word2_xor ..
  | 3 => exact Line.word3_xor ..

theorem stateByte_invShiftRows (x : Line) (r c : Fin 4) :
    stateByte (invShiftRows x) r c = stateByte x r (c - r) := by
  have hcolumn : stateColumn (invShiftRows x) c = column (row 0 (stateColumn x c))
      (row 1 (stateColumn x (c - 1))) (row 2 (stateColumn x (c - 2)))
      (row 3 (stateColumn x (c - 3))) := by
    simp only [invShiftRows, stateColumn_ofWords]
    obtain rfl | rfl | rfl | rfl : c = 0 ∨ c = 1 ∨ c = 2 ∨ c = 3 := by omega
    all_goals rfl
  rw [stateByte_eq, stateByte_eq, hcolumn, row_column]
  obtain rfl | rfl | rfl | rfl : r = 0 ∨ r = 1 ∨ r = 2 ∨ r = 3 := by omega
  · rw [sub_zero]
    rfl
  all_goals rfl

theorem row_invSubColumn (r : Fin 4) (x : UInt32) :
    row r (invSubColumn x) = invSub (row r x) := by
  rw [invSubColumn, row_column]
  obtain rfl | rfl | rfl | rfl : r = 0 ∨ r = 1 ∨ r = 2 ∨ r = 3 := by omega
  all_goals rfl

/-- The byte in row `r` and column `c` stands `r` columns before it in the result, and is looked up
in the inverse table after its column was multiplied by the inverse matrix. -/
theorem stateByte_decrypt (y key : Line) (r c : Fin 4) : stateByte (decrypt y key) r c
    = invSub (byteEquiv.symm (∑ i, mixMatrix⁻¹ r i
        * element (stateByte y i (c - r) ^^^ stateByte key i (c - r)))) := by
  have hmixed : element (row r (invMixColumn (stateColumn (y ^^^ key) (c - r))))
      = ∑ i, mixMatrix⁻¹ r i * element (stateByte y i (c - r) ^^^ stateByte key i (c - r)) := by
    have hrow := congrFun (mulVec_invMixMatrix (stateColumn (y ^^^ key) (c - r))) r
    simp only [← stateByte_xor]
    simp only [stateByte_eq]
    rw [inv_mixMatrix]
    exact hrow.symm
  rw [← hmixed, decrypt, stateByte_invShiftRows, stateByte_eq, stateColumn_onColumns,
    stateColumn_onColumns, row_invSubColumn]
  exact congrArg invSub (byteEquiv.symm_apply_apply _).symm

/-! ### Ten rounds -/

/-- Ten rounds under any keys permute the lines.  What undoes them are ten steps with the keys in
reverse order, in each of which the key is added, the columns are multiplied by the inverse of the
matrix, the bytes are looked up in the inverse of the table, and the rows move back. -/
theorem pseudoRound_permutes :
    (∀ (keys : RoundKeys) (x : Line),
      keys.reverse.foldl decrypt (pseudoRound keys x) = x ∧
        pseudoRound keys (keys.reverse.foldl decrypt x) = x) ∧
    (∀ (y key : Line) (r c : Fin 4), stateByte (decrypt y key) r c
      = invSub (byteEquiv.symm (∑ i, mixMatrix⁻¹ r i
          * element (stateByte y i (c - r) ^^^ stateByte key i (c - r))))) ∧
    (mixMatrix⁻¹ * mixMatrix = 1 ∧ mixMatrix * mixMatrix⁻¹ = 1) ∧
    ∀ b, invSub (sub b) = b ∧ sub (invSub b) = b := by
  have hmatrix : mixMatrix⁻¹ * mixMatrix = 1 := by
    rw [inv_mixMatrix, invMixMatrix_mul_mixMatrix]
  refine ⟨fun keys x => ⟨?_, ?_⟩, stateByte_decrypt, ⟨hmatrix, ?_⟩, fun b => ?_⟩
  · exact pseudoDecrypt_pseudoRound keys x
  · exact pseudoRound_pseudoDecrypt keys x
  · exact mul_eq_one_comm.mp hmatrix
  · exact ⟨invSub_sub b, sub_invSub b⟩

end ProofOfWork.Aes

import ProofOfWork.Proofs.Aes.Encrypt
import ProofOfWork.Proofs.Aes.Field

/-!
# ProofOfWork.Proofs.Aes.Algebraic — the round in the field of bytes

Every byte of a round's result is a byte of the key plus a sum over one column of the shifted state.
The sum has a row of a circulant matrix for its factors, and for its terms the substitutes, which
are the images of inverses under an affine map.  Rows and columns of a line are its bytes in the
order of columns (`stateByte_eq`); then the steps of the round follow one another on columns
(`stateColumn_round`), and a mixed column is the matrix times the column
(`element_row_mixColumn`).
-/

namespace ProofOfWork.Aes

/-! ### The state by rows and columns -/

theorem place_lt (r c : Fin 4) : 4 * c.val + r.val < 16 := by omega

/-- The byte in row `r` and column `c`. -/
def stateByte (x : Line) (r c : Fin 4) : UInt8 := x.bytes.get ⟨4 * c.val + r.val, place_lt r c⟩

def stateColumn (x : Line) (c : Fin 4) : UInt32 := #v[x.word0, x.word1, x.word2, x.word3].get c

section Half

variable (x : UInt64) (r : Fin 4) {k : Nat} (hk : k < 8)

theorem getElem_leBytes64_low (h : k = r.val) : (leBytes64 x)[k] = row r x.toUInt32 := by
  have hr := r.isLt
  subst h
  apply eq_of_bit8
  intro i hi
  rw [bit8_getElem_leBytes64 x hk hi, bit8_row r _ hi, bit32_toUInt32, decide_eq_true (by omega),
    Bool.true_and]

theorem getElem_leBytes64_high (h : k = 4 + r.val) :
    (leBytes64 x)[k] = row r (x >>> 32).toUInt32 := by
  have hr := r.isLt
  subst h
  apply eq_of_bit8
  intro i hi
  rw [bit8_getElem_leBytes64 x hk hi, bit8_row r _ hi, bit32_toUInt32, decide_eq_true (by omega),
    Bool.true_and, bit64_shiftRight]
  change bit64 x _ = bit64 x (32 + _)
  congr 1
  omega

end Half

theorem stateByte_eq (x : Line) (r c : Fin 4) : stateByte x r c = row r (stateColumn x c) := by
  have hr := r.isLt
  have hlo {k : Nat} (hk : k < 8) (h : 4 * c.val + r.val = k) :
      stateByte x r c = (leBytes64 x.lo)[k] := by
    subst h
    exact Vector.getElem_append_left hk
  have hhi {k : Nat} (hk : k < 8) (h : 4 * c.val + r.val = 8 + k) :
      stateByte x r c = (leBytes64 x.hi)[k] := by
    obtain rfl : 4 * c.val + r.val - 8 = k := by omega
    exact Vector.getElem_append_right (place_lt r c) (h ▸ Nat.le_add_right 8 _)
  match c with
  | 0 => rw [hlo (by omega) (Nat.zero_add r.val), getElem_leBytes64_low x.lo r _ rfl]; rfl
  | 1 => rw [hlo (k := 4 + r.val) (by omega) rfl, getElem_leBytes64_high x.lo r _ rfl]; rfl
  | 2 => rw [hhi (k := r.val) (by omega) rfl, getElem_leBytes64_low x.hi r _ rfl]; rfl
  | 3 =>
    rw [hhi (k := 4 + r.val) (by omega) (by change 12 + _ = _; omega),
      getElem_leBytes64_high x.hi r _ rfl]
    rfl

theorem stateColumn_ofWords (w0 w1 w2 w3 : UInt32) (c : Fin 4) :
    stateColumn (Line.ofWords w0 w1 w2 w3) c = #v[w0, w1, w2, w3].get c := by
  match c with
  | 0 => exact Line.word0_ofWords ..
  | 1 => exact Line.word1_ofWords ..
  | 2 => exact Line.word2_ofWords ..
  | 3 => exact Line.word3_ofWords ..

/-! ### Columns of the round -/

/-- A column is mixed from the substitutes of four bytes, of which each stands a column further on
than the one above it. -/
theorem stateColumn_round (x key : Line) (c : Fin 4) : stateColumn (round x key) c
    = mixColumn (column (sub (stateByte x 0 c)) (sub (stateByte x 1 (c + 1)))
        (sub (stateByte x 2 (c + 2))) (sub (stateByte x 3 (c + 3)))) ^^^ stateColumn key c := by
  simp only [stateByte_eq, ← encrypt_eq_round, encrypt, onColumns, shiftRows]
  obtain rfl | rfl | rfl | rfl : c = 0 ∨ c = 1 ∨ c = 2 ∨ c = 3 := by omega
  all_goals
    simp only [stateColumn, Line.word0_xor, Line.word1_xor, Line.word2_xor, Line.word3_xor,
      Line.word0_ofWords, Line.word1_ofWords, Line.word2_ofWords, Line.word3_ofWords,
      subColumn_column]
    rfl

/-! ### The matrix -/

/-- The circulant matrix of four factors: each row is the one above it, moved one place on. -/
noncomputable def circulant (v : Vector UInt8 4) : Matrix (Fin 4) (Fin 4) ByteField :=
  Matrix.of fun r i => element (v.get (i - r))

/-- A row of the matrix takes the terms from its own number on. -/
theorem sum_circulant (v : Vector UInt8 4) (f : Fin 4 → ByteField) (r : Fin 4) :
    ∑ i, circulant v r i * f i = element (v.get 0) * f r + element (v.get 1) * f (r + 1)
      + element (v.get 2) * f (r + 2) + element (v.get 3) * f (r + 3) := by
  have hentry (j : Fin 4) : circulant v r (r + j) = element (v.get j) := by
    rw [circulant, Matrix.of_apply, add_sub_cancel_left]
  calc ∑ i, circulant v r i * f i
      = ∑ j, circulant v r (r + j) * f (r + j) :=
        (Equiv.sum_comp (Equiv.addLeft r) fun i => circulant v r i * f i).symm
    _ = element (v.get 0) * f r + element (v.get 1) * f (r + 1) + element (v.get 2) * f (r + 2)
          + element (v.get 3) * f (r + 3) := by
        simp only [hentry, Fin.sum_univ_four, add_zero]

/-- The circulant matrix of (2, 3, 1, 1). -/
noncomputable def mixMatrix : Matrix (Fin 4) (Fin 4) ByteField :=
  Matrix.of fun r i => element (#v[2, 3, 1, 1].get (i - r))

theorem mixMatrix_eq : mixMatrix = circulant #v[2, 3, 1, 1] := rfl

theorem element_row_mixColumn (s : Fin 4 → UInt8) (r : Fin 4) :
    element (row r (mixColumn (column (s 0) (s 1) (s 2) (s 3))))
      = ∑ i, mixMatrix r i * element (s i) := by
  have hrow : row r (mixColumn (column (s 0) (s 1) (s 2) (s 3)))
      = double (s r) ^^^ triple (s (r + 1)) ^^^ s (r + 2) ^^^ s (r + 3) := by
    rw [mixColumn_column, row_column]
    obtain rfl | rfl | rfl | rfl : r = 0 ∨ r = 1 ∨ r = 2 ∨ r = 3 := by omega
    all_goals rfl
  have htwo : element 2 = root := by
    have hdouble := element_double 1
    rwa [element_one, mul_one] at hdouble
  have hthree : element 3 = root + 1 := by
    have htriple := element_triple 1
    rwa [element_one, mul_one] at htriple
  calc element (row r (mixColumn (column (s 0) (s 1) (s 2) (s 3))))
      = element 2 * element (s r) + element 3 * element (s (r + 1)) + element 1 * element (s (r + 2))
          + element 1 * element (s (r + 3)) := by
        simp only [hrow, element_xor, element_double, element_triple, htwo, hthree, element_one,
          one_mul]
    _ = ∑ i, mixMatrix r i * element (s i) := by
        rw [mixMatrix_eq, sum_circulant _ (fun i => element (s i))]
        rfl

/-! ### Substitutes -/

/-- The affine image of the inverse, with zero for its own inverse. -/
noncomputable def substitute (b : UInt8) : UInt8 := affine (byteEquiv.symm (element b)⁻¹)

theorem sub_eq_substitute (b : UInt8) : sub b = substitute b := by
  have hinverse : byteEquiv.symm (element b)⁻¹ = inverse b := by
    rw [Equiv.symm_apply_eq]
    exact (element_inverse b).symm
  rw [substitute, hinverse]
  exact (affine_unaffine (sub b)).symm

/-! ### The round -/

/-- The byte in row `r` and column `c` of a round's result is the key's byte there plus row `r` of
the matrix times the substitutes of four bytes: in row `i` the one that stands `i` columns after
column `c`. -/
theorem round_algebraic (x key : Line) (r c : Fin 4) : stateByte (round x key) r c
    = stateByte key r c ^^^
      byteEquiv.symm (∑ i, mixMatrix r i * element (substitute (stateByte x i (c + i)))) := by
  have hmixed := element_row_mixColumn (fun i => sub (stateByte x i (c + i))) r
  simp only [sub_eq_substitute, add_zero] at hmixed
  rw [← hmixed, stateByte_eq, stateColumn_round, row_xor, ← stateByte_eq key, UInt8.xor_comm]
  simp only [sub_eq_substitute]
  congr 1
  exact (byteEquiv.symm_apply_apply _).symm

/-- The first round of the trace that the standard prints for a key of 256 bits. -/
example : round
    (.ofBytes #v[0x00, 0x10, 0x20, 0x30, 0x40, 0x50, 0x60, 0x70, 0x80, 0x90, 0xa0, 0xb0, 0xc0, 0xd0,
      0xe0, 0xf0])
    (.ofBytes #v[0x10, 0x11, 0x12, 0x13, 0x14, 0x15, 0x16, 0x17, 0x18, 0x19, 0x1a, 0x1b, 0x1c, 0x1d,
      0x1e, 0x1f])
    = .ofBytes #v[0x4f, 0x63, 0x76, 0x06, 0x43, 0xe0, 0xaa, 0x85, 0xef, 0xa7, 0x21, 0x32, 0x01, 0xa4,
      0xe7, 0x05] := by
  decide +kernel

end ProofOfWork.Aes

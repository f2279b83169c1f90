import ProofOfWork.Aes.Round
import ProofOfWork.Proofs.Aes.Columns

/-!
# ProofOfWork.Proofs.Aes.Encrypt — the table computes the round instruction

What the table holds for a byte is the byte's share of a mixed column when it stands in row 0;
turned by `r` rows it is the share of a byte in row `r`.  The four shares of a column add up to the
mixed column (`roundColumn_eq`), so that the round by table is the instruction (`encrypt_eq_round`).
-/

namespace ProofOfWork.Aes

theorem lookup_eq (b : UInt8) :
    lookup b = column (double (sub b)) (sub b) (sub b) (triple (sub b)) := by
  have hlt := b.toNat_lt
  have hb : b.toNat.toUInt8 = b := UInt8.ofNat_toNat
  change (Vector.ofFn fun i : Fin 256 => mixed i.val.toUInt8)[b.toNat] = _
  rw [Vector.getElem_ofFn]
  simp only [hb]
  rfl

/-- The share in row `r` of a byte whose place is `k` rows down. -/
theorem row_share (r k : Fin 4) (b : UInt8) : row r (rotl32 (lookup b) (8 * k.val).toUInt32)
    = #v[double (sub b), sub b, sub b, triple (sub b)].get (r - k) := by
  rw [row_rotl32, lookup_eq, row_column]

theorem subColumn_column (a0 a1 a2 a3 : UInt8) :
    subColumn (column a0 a1 a2 a3) = column (sub a0) (sub a1) (sub a2) (sub a3) := by
  simp only [subColumn, row_column]
  rfl

theorem mixColumn_column (a0 a1 a2 a3 : UInt8) : mixColumn (column a0 a1 a2 a3)
    = column (double a0 ^^^ triple a1 ^^^ a2 ^^^ a3) (double a1 ^^^ triple a2 ^^^ a3 ^^^ a0)
      (double a2 ^^^ triple a3 ^^^ a0 ^^^ a1) (double a3 ^^^ triple a0 ^^^ a1 ^^^ a2) := by
  simp only [mixColumn, row_column]
  rfl

theorem roundColumn_eq (c0 c1 c2 c3 : UInt32) : roundColumn c0 c1 c2 c3
    = mixColumn (subColumn (column (row 0 c0) (row 1 c1) (row 2 c2) (row 3 c3))) := by
  have h0 (r : Fin 4) : row r (lookup (row 0 c0)) = _ := lookup_eq (row 0 c0) ▸ row_column r ..
  have h1 (r : Fin 4) : row r (rotl32 (lookup (row 1 c1)) 8) = _ := row_share r 1 (row 1 c1)
  have h2 (r : Fin 4) : row r (rotl32 (lookup (row 2 c2)) 16) = _ := row_share r 2 (row 2 c2)
  have h3 (r : Fin 4) : row r (rotl32 (lookup (row 3 c3)) 24) = _ := row_share r 3 (row 3 c3)
  apply eq_of_rows
  intro r
  change row r (lookup c0.toUInt8 ^^^ rotl32 (lookup (row 1 c1)) 8 ^^^
    rotl32 (lookup (row 2 c2)) 16 ^^^ rotl32 (lookup (row 3 c3)) 24) = _
  rw [← row_zero, row_xor, row_xor, row_xor, h0, h1, h2, h3, subColumn_column, mixColumn_column,
    row_column]
  generalize sub (row 0 c0) = s0
  generalize sub (row 1 c1) = s1
  generalize sub (row 2 c2) = s2
  generalize sub (row 3 c3) = s3
  match r with
  | 0 => rfl
  | 1 =>
    change s0 ^^^ double s1 ^^^ triple s2 ^^^ s3 = double s1 ^^^ triple s2 ^^^ s3 ^^^ s0
    ac_rfl
  | 2 =>
    change s0 ^^^ s1 ^^^ double s2 ^^^ triple s3 = double s2 ^^^ triple s3 ^^^ s0 ^^^ s1
    ac_rfl
  | 3 =>
    change triple s0 ^^^ s1 ^^^ s2 ^^^ double s3 = double s3 ^^^ triple s0 ^^^ s1 ^^^ s2
    ac_rfl

theorem encrypt_eq_round (x key : Line) : encrypt x key = round x key := by
  simp only [encrypt, round, onColumns, shiftRows, Line.word0_ofWords, Line.word1_ofWords,
    Line.word2_ofWords, Line.word3_ofWords, roundColumn_eq]

end ProofOfWork.Aes

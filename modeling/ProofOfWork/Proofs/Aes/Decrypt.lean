import ProofOfWork.Proofs.Aes.Encrypt
import ProofOfWork.Proofs.Line

/-!
# ProofOfWork.Proofs.Aes.Decrypt — the round backwards

Each step of the round has an inverse: the key is added again, the columns are multiplied by the
inverse matrix, whose entries are 14, 11, 13 and 9, the bytes are looked up in the inverse table and
the rows move back.  Both matrices are additive, so that they can be multiplied one byte of the
column at a time (`invMixByte_mixByte`).  That the steps also undo each other in the other order
holds because there are finitely many lines (`encrypt_decrypt`).
-/

namespace ProofOfWork.Aes

/-! ### Bytes -/

set_option maxRecDepth 4000 in
def invSbox : Vector UInt8 256 :=
  #v[
  0x52, 0x09, 0x6a, 0xd5, 0x30, 0x36, 0xa5, 0x38, 0xbf, 0x40, 0xa3, 0x9e, 0x81, 0xf3, 0xd7, 0xfb,
  0x7c, 0xe3, 0x39, 0x82, 0x9b, 0x2f, 0xff, 0x87, 0x34, 0x8e, 0x43, 0x44, 0xc4, 0xde, 0xe9, 0xcb,
  0x54, 0x7b, 0x94, 0x32, 0xa6, 0xc2, 0x23, 0x3d, 0xee, 0x4c, 0x95, 0x0b, 0x42, 0xfa, 0xc3, 0x4e,
  0x08, 0x2e, 0xa1, 0x66, 0x28, 0xd9, 0x24, 0xb2, 0x76, 0x5b, 0xa2, 0x49, 0x6d, 0x8b, 0xd1, 0x25,
  0x72, 0xf8, 0xf6, 0x64, 0x86, 0x68, 0x98, 0x16, 0xd4, 0xa4, 0x5c, 0xcc, 0x5d, 0x65, 0xb6, 0x92,
  0x6c, 0x70, 0x48, 0x50, 0xfd, 0xed, 0xb9, 0xda, 0x5e, 0x15, 0x46, 0x57, 0xa7, 0x8d, 0x9d, 0x84,
  0x90, 0xd8, 0xab, 0x00, 0x8c, 0xbc, 0xd3, 0x0a, 0xf7, 0xe4, 0x58, 0x05, 0xb8, 0xb3, 0x45, 0x06,
  0xd0, 0x2c, 0x1e, 0x8f, 0xca, 0x3f, 0x0f, 0x02, 0xc1, 0xaf, 0xbd, 0x03, 0x01, 0x13, 0x8a, 0x6b,
  0x3a, 0x91, 0x11, 0x41, 0x4f, 0x67, 0xdc, 0xea, 0x97, 0xf2, 0xcf, 0xce, 0xf0, 0xb4, 0xe6, 0x73,
  0x96, 0xac, 0x74, 0x22, 0xe7, 0xad, 0x35, 0x85, 0xe2, 0xf9, 0x37, 0xe8, 0x1c, 0x75, 0xdf, 0x6e,
  0x47, 0xf1, 0x1a, 0x71, 0x1d, 0x29, 0xc5, 0x89, 0x6f, 0xb7, 0x62, 0x0e, 0xaa, 0x18, 0xbe, 0x1b,
  0xfc, 0x56, 0x3e, 0x4b, 0xc6, 0xd2, 0x79, 0x20, 0x9a, 0xdb, 0xc0, 0xfe, 0x78, 0xcd, 0x5a, 0xf4,
  0x1f, 0xdd, 0xa8, 0x33, 0x88, 0x07, 0xc7, 0x31, 0xb1, 0x12, 0x10, 0x59, 0x27, 0x80, 0xec, 0x5f,
  0x60, 0x51, 0x7f, 0xa9, 0x19, 0xb5, 0x4a, 0x0d, 0x2d, 0xe5, 0x7a, 0x9f, 0x93, 0xc9, 0x9c, 0xef,
  0xa0, 0xe0, 0x3b, 0x4d, 0xae, 0x2a, 0xf5, 0xb0, 0xc8, 0xeb, 0xbb, 0x3c, 0x83, 0x53, 0x99, 0x61,
  0x17, 0x2b, 0x04, 0x7e, 0xba, 0x77, 0xd6, 0x26, 0xe1, 0x69, 0x14, 0x63, 0x55, 0x21, 0x0c, 0x7d]

def invSub (b : UInt8) : UInt8 := invSbox.get ⟨b.toNat, b.toNat_lt⟩

theorem invSub_sub (b : UInt8) : invSub (sub b) = b := by
  refine forall_lookup (p := fun b s => invSub s = b) sbox ?_ b
  decide +kernel

/-- Every byte is the substitute of one. -/
theorem sub_invSub (b : UInt8) : sub (invSub b) = b := by
  have hfinite : Finite UInt8 := Finite.of_injective UInt8.toFin fun _ _ => UInt8.toFin_inj.mp
  have hleft : Function.LeftInverse invSub sub := invSub_sub
  exact hleft.rightInverse_of_surjective (Finite.surjective_of_injective hleft.injective) b

/-! ### Columns -/

def times9 (b : UInt8) : UInt8 := double (double (double b)) ^^^ b

def times11 (b : UInt8) : UInt8 := double (double (double b)) ^^^ double b ^^^ b

def times13 (b : UInt8) : UInt8 := double (double (double b)) ^^^ double (double b) ^^^ b

def times14 (b : UInt8) : UInt8 := double (double (double b)) ^^^ double (double b) ^^^ double b

/-- The byte of a mixed column in the row of `a`; the rows of `b`, `c` and `d` follow. -/
def mixByte (a b c d : UInt8) : UInt8 := double a ^^^ triple b ^^^ c ^^^ d

def invMixByte (a b c d : UInt8) : UInt8 := times14 a ^^^ times11 b ^^^ times13 c ^^^ times9 d

def invMixColumn (x : UInt32) : UInt32 :=
  let a0 := row 0 x
  let a1 := row 1 x
  let a2 := row 2 x
  let a3 := row 3 x
  column (invMixByte a0 a1 a2 a3) (invMixByte a1 a2 a3 a0) (invMixByte a2 a3 a0 a1)
    (invMixByte a3 a0 a1 a2)

theorem invMixByte_xor (a b c d a' b' c' d' : UInt8) :
    invMixByte (a ^^^ a') (b ^^^ b') (c ^^^ c') (d ^^^ d')
      = invMixByte a b c d ^^^ invMixByte a' b' c' d' := by
  simp only [invMixByte, times9, times11, times13, times14, double_xor]
  ac_rfl

/-- What one byte of a column comes to, in its own row and in the three others. -/
theorem invMixByte_single (x : UInt8) :
    invMixByte (double x) x x (triple x) = x ∧ invMixByte (triple x) (double x) x x = 0 ∧
      invMixByte x (triple x) (double x) x = 0 ∧ invMixByte x x (triple x) (double x) = 0 := by
  have hcomm (a b c : UInt8) : a ^^^ (b ^^^ c) = b ^^^ (a ^^^ c) := by ac_rfl
  have hcancel (a b : UInt8) : a ^^^ (a ^^^ b) = b := by
    rw [← UInt8.xor_assoc, UInt8.xor_self, UInt8.zero_xor]
  simp only [invMixByte, times9, times11, times13, times14, triple, double_xor]
  -- Already as polynomials, before any reduction, the factors come to one and to zero.
  generalize double (double (double (double x))) = x4
  generalize double (double (double x)) = x3
  generalize double (double x) = x2
  generalize double x = x1
  simp only [UInt8.xor_comm, hcomm, hcancel, UInt8.xor_self, UInt8.xor_zero, and_self]

theorem invMixByte_mixByte (a b c d : UInt8) :
    invMixByte (mixByte a b c d) (mixByte b c d a) (mixByte c d a b) (mixByte d a b c) = a := by
  obtain ⟨ha, -, -, -⟩ := invMixByte_single a
  obtain ⟨-, hb, -, -⟩ := invMixByte_single b
  obtain ⟨-, -, hc, -⟩ := invMixByte_single c
  obtain ⟨-, -, -, hd⟩ := invMixByte_single d
  calc invMixByte (mixByte a b c d) (mixByte b c d a) (mixByte c d a b) (mixByte d a b c)
      = invMixByte (double a ^^^ triple b ^^^ c ^^^ d) (a ^^^ double b ^^^ triple c ^^^ d)
          (a ^^^ b ^^^ double c ^^^ triple d) (triple a ^^^ b ^^^ c ^^^ double d) := by
        simp only [mixByte]
        congr 1 <;> ac_rfl
    _ = a := by
        rw [invMixByte_xor, invMixByte_xor, invMixByte_xor, ha, hb, hc, hd]
        simp only [UInt8.xor_zero]

theorem invMixColumn_column (a0 a1 a2 a3 : UInt8) : invMixColumn (column a0 a1 a2 a3)
    = column (invMixByte a0 a1 a2 a3) (invMixByte a1 a2 a3 a0) (invMixByte a2 a3 a0 a1)
      (invMixByte a3 a0 a1 a2) := by
  simp only [invMixColumn, row_column]
  rfl

theorem invMixColumn_mixColumn (x : UInt32) : invMixColumn (mixColumn x) = x := by
  have hmix : mixColumn x = column (mixByte (row 0 x) (row 1 x) (row 2 x) (row 3 x))
      (mixByte (row 1 x) (row 2 x) (row 3 x) (row 0 x))
      (mixByte (row 2 x) (row 3 x) (row 0 x) (row 1 x))
      (mixByte (row 3 x) (row 0 x) (row 1 x) (row 2 x)) := rfl
  rw [hmix, invMixColumn_column]
  simp only [invMixByte_mixByte, column_rows]

def invSubColumn (x : UInt32) : UInt32 :=
  column (invSub (row 0 x)) (invSub (row 1 x)) (invSub (row 2 x)) (invSub (row 3 x))

theorem invSubColumn_subColumn (x : UInt32) : invSubColumn (subColumn x) = x := by
  have hcolumn (a0 a1 a2 a3 : UInt8) : invSubColumn (column a0 a1 a2 a3)
      = column (invSub a0) (invSub a1) (invSub a2) (invSub a3) := by
    simp only [invSubColumn, row_column]
    rfl
  rw [subColumn, hcolumn]
  simp only [invSub_sub, column_rows]

/-! ### Lines -/

/-- Row `r` moves `r` columns away from the first. -/
def invShiftRows (x : Line) : Line :=
  let c0 := x.word0
  let c1 := x.word1
  let c2 := x.word2
  let c3 := x.word3
  Line.ofWords (column (row 0 c0) (row 1 c3) (row 2 c2) (row 3 c1))
    (column (row 0 c1) (row 1 c0) (row 2 c3) (row 3 c2))
    (column (row 0 c2) (row 1 c1) (row 2 c0) (row 3 c3))
    (column (row 0 c3) (row 1 c2) (row 2 c1) (row 3 c0))

theorem invShiftRows_shiftRows (x : Line) : invShiftRows (shiftRows x) = x := by
  have h0 (a b c d : UInt8) : row 0 (column a b c d) = a := row_column 0 a b c d
  have h1 (a b c d : UInt8) : row 1 (column a b c d) = b := row_column 1 a b c d
  have h2 (a b c d : UInt8) : row 2 (column a b c d) = c := row_column 2 a b c d
  have h3 (a b c d : UInt8) : row 3 (column a b c d) = d := row_column 3 a b c d
  simp only [invShiftRows, shiftRows, Line.word0_ofWords, Line.word1_ofWords, Line.word2_ofWords,
    Line.word3_ofWords, h0, h1, h2, h3, column_rows, Line.ofWords_words]

theorem onColumns_cancel {f g : UInt32 → UInt32} (h : ∀ c, f (g c) = c) (x : Line) :
    onColumns f (onColumns g x) = x := by
  simp only [onColumns, Line.word0_ofWords, Line.word1_ofWords, Line.word2_ofWords,
    Line.word3_ofWords, h, Line.ofWords_words]

/-- The round backwards under the same key. -/
def decrypt (y key : Line) : Line :=
  invShiftRows (onColumns invSubColumn (onColumns invMixColumn (y ^^^ key)))

theorem decrypt_encrypt (x key : Line) : decrypt (encrypt x key) key = x := by
  rw [decrypt, encrypt, Line.xor_xor_cancel_right, onColumns_cancel invMixColumn_mixColumn,
    onColumns_cancel invSubColumn_subColumn, invShiftRows_shiftRows]

/-- A map of lines that can be undone reaches every line. -/
theorem encrypt_decrypt (y key : Line) : encrypt (decrypt y key) key = y := by
  have hleft : Function.LeftInverse (decrypt · key) (encrypt · key) := (decrypt_encrypt · key)
  have hright := hleft.rightInverse_of_surjective (Finite.surjective_of_injective hleft.injective)
  exact hright y

theorem decrypt_round (x key : Line) : decrypt (round x key) key = x := by
  rw [← encrypt_eq_round, decrypt_encrypt]

theorem round_decrypt (y key : Line) : round (decrypt y key) key = y := by
  rw [← encrypt_eq_round, encrypt_decrypt]

/-! ### Ten rounds -/

/-- The rounds backwards, the last key first. -/
def pseudoDecrypt (keys : RoundKeys) (y : Line) : Line := keys.reverse.foldl decrypt y

/-- Where one step undoes another under every key, a run of the one undoes a run of the other. -/
theorem foldl_reverse_foldl {f g : Line → Line → Line} (h : ∀ x key, g (f x key) key = x)
    (keys : List Line) (x : Line) : keys.reverse.foldl g (keys.foldl f x) = x := by
  induction keys generalizing x with
  | nil => rfl
  | cons key keys ih =>
    -- the first key is the last one on the way back
    rw [List.foldl_cons, List.reverse_cons, List.foldl_append, ih]
    exact h x key

theorem pseudoDecrypt_pseudoRound (keys : RoundKeys) (x : Line) :
    pseudoDecrypt keys (pseudoRound keys x) = x := by
  have hkeys := foldl_reverse_foldl decrypt_round keys.toList x
  rwa [← Vector.toList_reverse, Vector.foldl_toList, Vector.foldl_toList] at hkeys

theorem pseudoRound_pseudoDecrypt (keys : RoundKeys) (y : Line) :
    pseudoRound keys (pseudoDecrypt keys y) = y := by
  have hkeys := foldl_reverse_foldl round_decrypt keys.reverse.toList y
  rwa [← Vector.toList_reverse, Vector.reverse_reverse, Vector.foldl_toList, Vector.foldl_toList]
    at hkeys

theorem pseudoRound_injective (keys : RoundKeys) : Function.Injective (pseudoRound keys) :=
  Function.LeftInverse.injective (pseudoDecrypt_pseudoRound keys)

end ProofOfWork.Aes

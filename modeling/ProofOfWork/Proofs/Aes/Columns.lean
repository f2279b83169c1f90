import ProofOfWork.Aes.Encrypt
import ProofOfWork.Proofs.Lanes.Packed

/-!
# ProofOfWork.Proofs.Aes.Columns — lines as columns, columns as bytes

A line is its four words, and a word is the column of its four bytes; the sum of two is taken word
by word and byte by byte, and a rotation by bytes turns a column.
-/

namespace ProofOfWork

open Lanes

/-! ### Words of a line -/

namespace Line

variable (x y : Line) (a b c d : UInt32)

@[simp] theorem word0_ofWords : (ofWords a b c d).word0 = a := Packed.low_pack a b

@[simp] theorem word1_ofWords : (ofWords a b c d).word1 = b := Packed.high_pack a b

@[simp] theorem word2_ofWords : (ofWords a b c d).word2 = c := Packed.low_pack c d

@[simp] theorem word3_ofWords : (ofWords a b c d).word3 = d := Packed.high_pack c d

@[simp] theorem word0_xor : (x ^^^ y).word0 = x.word0 ^^^ y.word0 := Packed.low_xor x.lo y.lo

@[simp] theorem word1_xor : (x ^^^ y).word1 = x.word1 ^^^ y.word1 := Packed.high_xor x.lo y.lo

@[simp] theorem word2_xor : (x ^^^ y).word2 = x.word2 ^^^ y.word2 := Packed.low_xor x.hi y.hi

@[simp] theorem word3_xor : (x ^^^ y).word3 = x.word3 ^^^ y.word3 := Packed.high_xor x.hi y.hi

theorem eq_of_words {x y : Line} (h0 : x.word0 = y.word0) (h1 : x.word1 = y.word1)
    (h2 : x.word2 = y.word2) (h3 : x.word3 = y.word3) : x = y := by
  obtain ⟨xl, xh⟩ := x
  obtain ⟨yl, yh⟩ := y
  obtain rfl : xl = yl := Packed.eq_of_low_high h0 h1
  obtain rfl : xh = yh := Packed.eq_of_low_high h2 h3
  rfl

theorem ofWords_words : ofWords x.word0 x.word1 x.word2 x.word3 = x := by
  apply eq_of_words <;> simp

end Line

/-! ### Rows of a column -/

namespace Aes

theorem row_zero (c : UInt32) : row 0 c = c.toUInt8 :=
  congrArg UInt32.toUInt8 UInt32.shiftRight_zero

theorem bit8_row (r : Fin 4) (c : UInt32) {i : Nat} (hi : i < 8) :
    bit8 (row r c) i = bit32 c (8 * r.val + i) := by
  have hr := r.isLt
  have hn : (8 * r.val).toUInt32.toNat = 8 * r.val := toNat_amount32 ⟨8 * r.val, by omega⟩
  rw [row, bit8_toUInt8, bit32_shiftRight, hn, Nat.mod_eq_of_lt (by omega), decide_eq_true hi,
    Bool.true_and]

/-- A column is its bytes. -/
theorem eq_of_rows {c d : UInt32} (h : ∀ r, row r c = row r d) : c = d := by
  apply eq_of_bit32
  intro i hi
  have hbit (x : UInt32) : bit32 x i = bit8 (row ⟨i / 8, by omega⟩ x) (i % 8) := by
    rw [bit8_row _ _ (by omega)]
    simp only [Nat.div_add_mod]
  rw [hbit, hbit, h]

theorem row_xor (r : Fin 4) (c d : UInt32) : row r (c ^^^ d) = row r c ^^^ row r d := by
  apply eq_of_bit8
  intro i hi
  rw [bit8_xor, bit8_row _ _ hi, bit8_row _ _ hi, bit8_row _ _ hi, bit32_xor]

/-- A rotation by `k` bytes turns the rows `k` places. -/
theorem row_rotl32 (r k : Fin 4) (c : UInt32) :
    row r (rotl32 c (8 * k.val).toUInt32) = row (r - k) c := by
  have hsub : (r - k).val = (4 - k.val + r.val) % 4 := rfl
  obtain ⟨n, hn, hrot⟩ : ∃ n : Fin 32, n.val = 8 * k.val ∧
      rotl32 c (8 * k.val).toUInt32 = rotateLeft c n :=
    ⟨⟨8 * k.val, by omega⟩, rfl, rotl32_eq_rotateLeft c ⟨8 * k.val, by omega⟩⟩
  apply eq_of_bit8
  intro i hi
  rw [bit8_row _ _ hi, bit8_row _ _ hi, hrot, bit32_rotateLeft, hsub]
  split
  next h => exact congrArg (bit32 c) (by omega)
  next h =>
    rw [decide_eq_true (by omega), Bool.true_and]
    exact congrArg (bit32 c) (by omega)

theorem bit32_column (r0 r1 r2 r3 : UInt8) (i : Nat) : bit32 (column r0 r1 r2 r3) i
    = (bit8 r0 i || decide (i < 32) && !decide (i < 8) && bit8 r1 (i - 8)
      || decide (i < 32) && !decide (i < 16) && bit8 r2 (i - 16)
      || decide (i < 32) && !decide (i < 24) && bit8 r3 (i - 24)) := by
  simp only [column, bit32_or, bit32_shiftLeft, bit32_byte]
  rfl

/-- Of the four bytes of a column only the one in the row has a part in it. -/
theorem row_column (r : Fin 4) (r0 r1 r2 r3 : UInt8) :
    row r (column r0 r1 r2 r3) = #v[r0, r1, r2, r3].get r := by
  apply eq_of_bit8
  intro i hi
  rw [bit8_row _ _ hi, bit32_column]
  match r with
  | ⟨0, _⟩ =>
    change _ = bit8 r0 i
    simp [hi, show i < 16 by omega, show i < 24 by omega]
  | ⟨1, _⟩ =>
    change _ = bit8 r1 i
    have h0 := bit8_of_ge r0 (show 8 ≤ 8 + i by omega)
    simp [h0, show 8 + i < 16 by omega, show 8 + i < 24 by omega, show 8 + i < 32 by omega]
  | ⟨2, _⟩ =>
    change _ = bit8 r2 i
    have h0 := bit8_of_ge r0 (show 8 ≤ 16 + i by omega)
    have h1 := bit8_of_ge r1 (show 8 ≤ 16 + i - 8 by omega)
    simp [h0, h1, show 16 + i < 24 by omega, show 16 + i < 32 by omega]
  | ⟨3, _⟩ =>
    change _ = bit8 r3 i
    have h0 := bit8_of_ge r0 (show 8 ≤ 24 + i by omega)
    have h1 := bit8_of_ge r1 (show 8 ≤ 24 + i - 8 by omega)
    have h2 := bit8_of_ge r2 (show 8 ≤ 24 + i - 16 by omega)
    simp [h0, h1, h2, show 24 + i < 32 by omega]

theorem column_rows (c : UInt32) : column (row 0 c) (row 1 c) (row 2 c) (row 3 c) = c := by
  apply eq_of_rows
  intro r
  rw [row_column]
  match r with
  | 0 | 1 | 2 | 3 => rfl

/-! ### Doubling -/

/-- The bit that doubling shifts out. -/
theorem carry_cases (b : UInt8) : b >>> 7 = 0 ∨ b >>> 7 = 1 := by
  have hlt := b.toNat_lt
  have hnat : (b >>> 7).toNat = b.toNat >>> 7 := UInt8.toNat_shiftRight b 7
  rw [Nat.shiftRight_eq_div_pow] at hnat
  have hcases : (b >>> 7).toNat = 0 ∨ (b >>> 7).toNat = 1 := by omega
  exact hcases.imp UInt8.toNat_inj.mp UInt8.toNat_inj.mp

theorem double_xor (x y : UInt8) : double (x ^^^ y) = double x ^^^ double y := by
  have hcarry (c d : UInt8) (hc : c = 0 ∨ c = 1) (hd : d = 0 ∨ d = 1) :
      (c ^^^ d) * 0x1b = (c * 0x1b : UInt8) ^^^ (d * 0x1b : UInt8) := by
    rcases hc with rfl | rfl <;> rcases hd with rfl | rfl <;> rfl
  rw [double, UInt8.shiftRight_xor, hcarry _ _ (carry_cases x) (carry_cases y),
    UInt8.shiftLeft_xor, double, double]
  ac_rfl

end Aes

end ProofOfWork

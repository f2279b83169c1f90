import ProofOfWork.Lanes.Backend
import ProofOfWork.Proofs.Bits

/-!
# ProofOfWork.Proofs.Lanes.Packed — two words in one do not meet

Every operation on two packed words is the operation on each of them.  Bitwise operations and shifts
are compared bit by bit.  A sum is taken without the top bits, so that it cannot leave its word, and
adding a top bit is the same as flipping it.
-/

namespace ProofOfWork.Lanes.Packed

/-! ### The two words -/

@[simp] theorem bit32_low (x : UInt64) (i : Nat) :
    bit32 (low x) i = (decide (i < 32) && bit64 x i) := by
  simp [low]

@[simp] theorem bit32_high (x : UInt64) (i : Nat) : bit32 (high x) i = bit64 x (32 + i) := by
  by_cases h : i < 32
  · simp [high, h]
  · simp [high, h, bit64_of_ge x (show 64 ≤ 32 + i by omega)]

theorem bit64_pack_low (a b : UInt32) {i : Nat} (h : i < 32) : bit64 (pack a b) i = bit32 a i := by
  simp [pack, h]

@[simp] theorem bit64_pack_high (a b : UInt32) (i : Nat) :
    bit64 (pack a b) (32 + i) = bit32 b i := by
  have ha : bit32 a (32 + i) = false := bit32_of_ge a (by omega)
  by_cases h : i < 32
  · have : 32 + i < 64 := by omega
    simp [pack, ha, this]
  · simp [pack, ha, bit32_of_ge b (show 32 ≤ i by omega)]

@[simp] theorem low_pack (a b : UInt32) : low (pack a b) = a := by
  apply eq_of_bit32
  intro i hi
  simp [bit64_pack_low, hi]

@[simp] theorem high_pack (a b : UInt32) : high (pack a b) = b := by
  apply eq_of_bit32
  intro i hi
  simp

theorem eq_of_low_high {x y : UInt64} (hl : low x = low y) (hh : high x = high y) : x = y := by
  apply eq_of_bit64
  intro i hi
  by_cases h : i < 32
  · have := congrArg (bit32 · i) hl
    simpa [h] using this
  · obtain ⟨k, rfl⟩ := Nat.exists_eq_add_of_le (Nat.le_of_not_lt h)
    simpa using congrArg (bit32 · k) hh

/-! ### Bitwise operations -/

section Bitwise

variable (x y : UInt64)

@[simp] theorem low_xor : low (x ^^^ y) = low x ^^^ low y := UInt64.toUInt32_xor x y

@[simp] theorem high_xor : high (x ^^^ y) = high x ^^^ high y := by
  unfold high
  rw [UInt64.shiftRight_xor, UInt64.toUInt32_xor]

@[simp] theorem low_and : low (x &&& y) = low x &&& low y := UInt64.toUInt32_and x y

@[simp] theorem high_and : high (x &&& y) = high x &&& high y := by
  unfold high
  rw [UInt64.shiftRight_and, UInt64.toUInt32_and]

@[simp] theorem low_or : low (x ||| y) = low x ||| low y := UInt64.toUInt32_or x y

@[simp] theorem high_or : high (x ||| y) = high x ||| high y := by
  unfold high
  rw [UInt64.shiftRight_or, UInt64.toUInt32_or]

@[simp] theorem low_not : low (~~~x) = ~~~low x := UInt64.toUInt32_not x

@[simp] theorem high_not : high (~~~x) = ~~~high x := by
  apply eq_of_bit32
  intro i hi
  have : 32 + i < 64 := by omega
  simp [hi, this]

end Bitwise

/-! ### Shifts by a whole word -/

section WordShifts

variable (x : UInt64)

theorem low_shiftLeft_word : low (x <<< 32) = 0 := by
  apply eq_of_bit32
  intro i hi
  rw [bit32_low, bit64_shiftLeft]
  change (_ && (_ && !decide (i < 32) && _)) = _
  simp [hi]

theorem high_shiftLeft_word : high (x <<< 32) = low x := by
  apply eq_of_bit32
  intro i hi
  rw [bit32_high, bit64_shiftLeft, bit32_low]
  change (decide (32 + i < 64) && !decide (32 + i < 32) && bit64 x (32 + i - 32)) = _
  simp [hi, show 32 + i < 64 by omega]

theorem high_shiftRight_word : high (x >>> 32) = 0 := by
  apply eq_of_bit32
  intro i hi
  rw [bit32_high, bit64_shiftRight, bit32_zero]
  exact bit64_of_ge x (show 64 ≤ 32 + (32 + i) by omega)

end WordShifts

/-! ### Shifts and rotation -/

section Shifts

variable (n : Fin 32) (x : UInt64)

theorem low_shr : low (shr n x) = low x >>> n.val.toUInt32 := by
  apply eq_of_bit32
  intro i hi
  have hn : n.val % 64 = n.val := by omega
  simp [shr, both, hi, hn, Nat.mod_eq_of_lt n.isLt, Bool.and_comm]

theorem high_shr : high (shr n x) = high x >>> n.val.toUInt32 := by
  apply eq_of_bit32
  intro i hi
  have hn : n.val % 64 = n.val := by omega
  have hx := bit64_of_ge x (i := n.val + (32 + i))
  simp only [shr, both, bit32_high, bit64_and, bit64_shiftRight, bit64_pack_high, bit32_shiftRight,
    toNat_amount64, toNat_amount32, hn, bit32_ones]
  grind

theorem low_shl : low (shl n x) = low x <<< n.val.toUInt32 := by
  apply eq_of_bit32
  intro i hi
  have hn : n.val % 64 = n.val := by omega
  simp only [shl, both, bit32_low, bit64_and, bit64_shiftLeft, bit64_pack_low _ _ hi,
    bit32_shiftLeft, toNat_amount64, toNat_amount32, hn, bit32_ones]
  grind

theorem high_shl : high (shl n x) = high x <<< n.val.toUInt32 := by
  apply eq_of_bit32
  intro i hi
  have hn : n.val % 64 = n.val := by omega
  simp only [shl, both, bit32_high, bit64_and, bit64_shiftLeft, bit64_pack_high, bit32_shiftLeft,
    toNat_amount64, toNat_amount32, hn, bit32_ones]
  grind

/-- The packed rotation, as the unit writes it. -/
theorem low_rol : low (packedUnit.rol n x) = rotateLeft (low x) n := by
  rw [← rotl32_eq_rotateLeft]
  exact low_pack _ _

theorem high_rol : high (packedUnit.rol n x) = rotateLeft (high x) n := by
  rw [← rotl32_eq_rotateLeft]
  exact high_pack _ _

end Shifts

/-! ### Sums -/

theorem bit32_top (i : Nat) : bit32 0x80000000 i = decide (i = 31) := by
  change (BitVec.twoPow 32 31).getLsbD i = _
  rw [BitVec.getLsbD_twoPow]
  grind

/-- Nothing is carried into the top bit, and what leaves it is lost. -/
theorem add_top (s : UInt32) : s + 0x80000000 = s ^^^ 0x80000000 := by
  apply eq_of_bit32
  intro i hi
  have h : 2147483648 % 2 ^ i = 0 := by
    have : 2147483648 = 2 ^ i * 2 ^ (31 - i) := by
      rw [← Nat.pow_add, show i + (31 - i) = 31 by omega]
    rw [this, Nat.mul_mod_right]
  have hc : BitVec.carry i s.toBitVec 0x80000000 false = false := by
    simp [BitVec.carry, h]
    exact Nat.mod_lt _ (Nat.two_pow_pos i)
  change (s.toBitVec + 0x80000000).getLsbD i = _
  rw [BitVec.getLsbD_add hi, hc, Bool.xor_false]
  exact BitVec.getLsbD_xor.symm

theorem and_top (a : UInt32) : a &&& 0x80000000 = 0 ∨ a &&& 0x80000000 = 0x80000000 := by
  by_cases h : bit32 a 31
  · right
    apply eq_of_bit32
    intro i hi
    rw [bit32_and, bit32_top]
    grind
  · left
    apply eq_of_bit32
    intro i hi
    rw [bit32_and, bit32_top, bit32_zero]
    grind

theorem and_not_top_add_and_top (a : UInt32) : (a &&& ~~~0x80000000) + (a &&& 0x80000000) = a := by
  have hor : (a &&& ~~~0x80000000) ||| (a &&& 0x80000000) = a := by
    apply eq_of_bit32
    intro i hi
    simp only [bit32_or, bit32_and, bit32_not, hi]
    grind
  have hand : (a &&& ~~~0x80000000) &&& (a &&& 0x80000000) = 0 := by
    apply eq_of_bit32
    intro i hi
    simp only [bit32_zero, bit32_and, bit32_not, hi]
    grind
  apply UInt32.eq_of_toBitVec_eq
  exact (BitVec.add_eq_or_of_and_eq_zero _ _ (congrArg UInt32.toBitVec hand)).trans
    (congrArg UInt32.toBitVec hor)

theorem xor_and_top (a b : UInt32) :
    (a ^^^ b) &&& 0x80000000 = (a &&& 0x80000000) ^^^ (b &&& 0x80000000) := by
  apply eq_of_bit32
  intro i hi
  simp only [bit32_xor, bit32_and]
  exact Bool.and_xor_distrib_right ..

/-- Two words added without their top bits, which are then added apart, give their sum. -/
theorem add_apart (a b : UInt32) :
    ((a &&& ~~~0x80000000) + (b &&& ~~~0x80000000)) ^^^ ((a ^^^ b) &&& 0x80000000) = a + b := by
  have e : a + b = (a &&& ~~~0x80000000) + (b &&& ~~~0x80000000)
      + ((a &&& 0x80000000) + (b &&& 0x80000000)) := by
    have ha := and_not_top_add_and_top a
    have hb := and_not_top_add_and_top b
    grind
  rw [e, xor_and_top]
  generalize (a &&& ~~~0x80000000) + (b &&& ~~~0x80000000) = s
  rcases and_top a with ha | ha <;> rcases and_top b with hb | hb <;> rw [ha, hb]
  · simp
  · simp [add_top]
  · simp [add_top]
  · simp

theorem toNat_low (x : UInt64) : (low x).toNat = x.toNat % 4294967296 := by
  simp [low]

theorem toNat_high (x : UInt64) : (high x).toNat = x.toNat / 4294967296 := by
  have := x.toNat_lt
  simp [high, Nat.shiftRight_eq_div_pow]
  omega

theorem low_plus (x y : UInt64) : low (x + y) = low x + low y := UInt64.toUInt32_add x y

/-- Where the lower words' sum fits its word, nothing is carried into the upper ones. -/
theorem high_plus {x y : UInt64} (h : (low x).toNat + (low y).toNat < 4294967296) :
    high (x + y) = high x + high y := by
  apply UInt32.toNat_inj.mp
  have hx := x.toNat_lt
  have hy := y.toNat_lt
  simp only [toNat_low] at h
  simp only [toNat_high, UInt64.toNat_add, UInt32.toNat_add]
  omega

theorem and_not_top_lt (a : UInt32) : (a &&& ~~~0x80000000).toNat < 2147483648 := by
  rw [UInt32.toNat_and]
  exact Nat.lt_of_le_of_lt Nat.and_le_right (by decide)

theorem low_add (x y : UInt64) : low (add x y) = low x + low y := by
  simp only [add, low_xor, low_and, low_plus, low_not]
  exact add_apart (low x) (low y)

theorem high_add (x y : UInt64) : high (add x y) = high x + high y := by
  have h : (low (x &&& ~~~topBits)).toNat + (low (y &&& ~~~topBits)).toNat < 4294967296 := by
    have hx := and_not_top_lt (low x)
    have hy := and_not_top_lt (low y)
    rw [low_and, low_and, low_not]
    change (low x &&& ~~~0x80000000).toNat + (low y &&& ~~~0x80000000).toNat < _
    omega
  simp only [add, high_xor, high_and, high_plus h, high_not]
  exact add_apart (high x) (high y)

end ProofOfWork.Lanes.Packed

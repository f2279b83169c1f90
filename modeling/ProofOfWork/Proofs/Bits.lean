import ProofOfWork.Bytes

/-!
# ProofOfWork.Proofs.Bits — words as sequences of bits

A word is seen through its bits, the lowest first; past its width every bit is clear.  Each
operation that moves or combines bits has one rule, and two words with the same bits are equal.
-/

namespace ProofOfWork

def bit8 (x : UInt8) (i : Nat) : Bool := x.toBitVec.getLsbD i

def bit32 (x : UInt32) (i : Nat) : Bool := x.toBitVec.getLsbD i

def bit64 (x : UInt64) (i : Nat) : Bool := x.toBitVec.getLsbD i

theorem eq_of_bit8 {x y : UInt8} (h : ∀ i < 8, bit8 x i = bit8 y i) : x = y :=
  UInt8.eq_of_toBitVec_eq (BitVec.eq_of_getLsbD_eq h)

theorem eq_of_bit32 {x y : UInt32} (h : ∀ i < 32, bit32 x i = bit32 y i) : x = y :=
  UInt32.eq_of_toBitVec_eq (BitVec.eq_of_getLsbD_eq h)

theorem eq_of_bit64 {x y : UInt64} (h : ∀ i < 64, bit64 x i = bit64 y i) : x = y :=
  UInt64.eq_of_toBitVec_eq (BitVec.eq_of_getLsbD_eq h)

theorem bit8_of_ge (x : UInt8) {i : Nat} (h : 8 ≤ i) : bit8 x i = false :=
  BitVec.getLsbD_of_ge _ _ h

theorem bit32_of_ge (x : UInt32) {i : Nat} (h : 32 ≤ i) : bit32 x i = false :=
  BitVec.getLsbD_of_ge _ _ h

theorem bit64_of_ge (x : UInt64) {i : Nat} (h : 64 ≤ i) : bit64 x i = false :=
  BitVec.getLsbD_of_ge _ _ h

/-! ### Words of 32 bits -/

section Bit32

variable (x y n : UInt32) (i : Nat)

@[simp] theorem bit32_zero : bit32 0 i = false := BitVec.getLsbD_zero

@[simp] theorem bit32_ones : bit32 0xffffffff i = decide (i < 32) := BitVec.getLsbD_allOnes

@[simp] theorem bit32_xor : bit32 (x ^^^ y) i = (bit32 x i ^^ bit32 y i) := BitVec.getLsbD_xor

@[simp] theorem bit32_and : bit32 (x &&& y) i = (bit32 x i && bit32 y i) := BitVec.getLsbD_and

@[simp] theorem bit32_or : bit32 (x ||| y) i = (bit32 x i || bit32 y i) := BitVec.getLsbD_or

@[simp] theorem bit32_not : bit32 (~~~x) i = (decide (i < 32) && !bit32 x i) := BitVec.getLsbD_not

@[simp] theorem bit32_shiftLeft : bit32 (x <<< n) i
    = (decide (i < 32) && !decide (i < n.toNat % 32) && bit32 x (i - n.toNat % 32)) := by
  simp only [bit32, UInt32.toBitVec_shiftLeft]
  rw [BitVec.shiftLeft_eq', BitVec.getLsbD_shiftLeft]
  rfl

@[simp] theorem bit32_shiftRight : bit32 (x >>> n) i = bit32 x (n.toNat % 32 + i) := by
  simp only [bit32, UInt32.toBitVec_shiftRight]
  rw [BitVec.ushiftRight_eq', BitVec.getLsbD_ushiftRight]
  rfl

end Bit32

/-! ### Words of 64 bits -/

section Bit64

variable (x y n : UInt64) (i : Nat)

@[simp] theorem bit64_zero : bit64 0 i = false := BitVec.getLsbD_zero

@[simp] theorem bit64_and : bit64 (x &&& y) i = (bit64 x i && bit64 y i) := BitVec.getLsbD_and

@[simp] theorem bit64_or : bit64 (x ||| y) i = (bit64 x i || bit64 y i) := BitVec.getLsbD_or

@[simp] theorem bit64_not : bit64 (~~~x) i = (decide (i < 64) && !bit64 x i) := BitVec.getLsbD_not

@[simp] theorem bit64_shiftLeft : bit64 (x <<< n) i
    = (decide (i < 64) && !decide (i < n.toNat % 64) && bit64 x (i - n.toNat % 64)) := by
  simp only [bit64, UInt64.toBitVec_shiftLeft]
  rw [BitVec.shiftLeft_eq', BitVec.getLsbD_shiftLeft]
  rfl

@[simp] theorem bit64_shiftRight : bit64 (x >>> n) i = bit64 x (n.toNat % 64 + i) := by
  simp only [bit64, UInt64.toBitVec_shiftRight]
  rw [BitVec.ushiftRight_eq', BitVec.getLsbD_ushiftRight]
  rfl

end Bit64

/-! ### Change of width -/

@[simp] theorem bit64_toUInt64 (x : UInt32) (i : Nat) : bit64 x.toUInt64 i = bit32 x i := by
  simp only [bit64, bit32, UInt32.toBitVec_toUInt64, BitVec.getLsbD_setWidth]
  by_cases h : i < 32
  · have : i < 64 := by omega
    simp [this]
  · rw [BitVec.getLsbD_of_ge _ _ (by omega), Bool.and_false]

@[simp] theorem bit32_toUInt32 (x : UInt64) (i : Nat) :
    bit32 x.toUInt32 i = (decide (i < 32) && bit64 x i) := by
  simp only [bit64, bit32, UInt64.toBitVec_toUInt32, BitVec.getLsbD_setWidth]

@[simp] theorem bit32_byte (x : UInt8) (i : Nat) : bit32 x.toUInt32 i = bit8 x i := by
  simp only [bit32, bit8, UInt8.toBitVec_toUInt32, BitVec.getLsbD_setWidth]
  by_cases h : i < 8
  · have : i < 32 := by omega
    simp [this]
  · rw [BitVec.getLsbD_of_ge _ _ (by omega), Bool.and_false]

@[simp] theorem bit8_toUInt8 (x : UInt32) (i : Nat) :
    bit8 x.toUInt8 i = (decide (i < 8) && bit32 x i) := by
  simp only [bit8, bit32, UInt32.toBitVec_toUInt8, BitVec.getLsbD_setWidth]

@[simp] theorem bit8_lowByte (x : UInt64) (i : Nat) :
    bit8 x.toUInt8 i = (decide (i < 8) && bit64 x i) := by
  simp only [bit8, bit64, UInt64.toBitVec_toUInt8, BitVec.getLsbD_setWidth]

/-- The bits of a word, eight to a byte. -/
theorem bit8_getElem_leBytes64 (x : UInt64) {k i : Nat} (hk : k < 8) (hi : i < 8) :
    bit8 (leBytes64 x)[k] i = bit64 x (8 * k + i) := by
  have hcases : k = 0 ∨ k = 1 ∨ k = 2 ∨ k = 3 ∨ k = 4 ∨ k = 5 ∨ k = 6 ∨ k = 7 := by omega
  rcases hcases with rfl | rfl | rfl | rfl | rfl | rfl | rfl | rfl <;> simp [leBytes64, hi]

/-! ### Bytes -/

/-- What holds of the 256 bytes holds of every byte. -/
theorem forall_byte {p : UInt8 → Prop} (h : ∀ i : Fin 256, p i.val.toUInt8) (b : UInt8) : p b := by
  have hb : b.toNat.toUInt8 = b := UInt8.ofNat_toNat
  have hp := h ⟨b.toNat, b.toNat_lt⟩
  rwa [hb] at hp

/-- What holds of a table's entries holds of all lookups.  The check of a fixed table then goes
through it once. -/
theorem forall_lookup {α : Type} {p : UInt8 → α → Prop} (v : Vector α 256)
    (h : ∀ e ∈ v.toList.zipIdx, p e.2.toUInt8 e.1) (b : UInt8) :
    p b (v.get ⟨b.toNat, b.toNat_lt⟩) := by
  have hb : b.toNat.toUInt8 = b := UInt8.ofNat_toNat
  have hlt : b.toNat < v.toList.length := by
    rw [Vector.length_toList]
    exact b.toNat_lt
  have hentry : (v.get ⟨b.toNat, b.toNat_lt⟩, b.toNat) ∈ v.toList.zipIdx := by
    rw [List.mk_mem_zipIdx_iff_getElem?, List.getElem?_eq_getElem hlt, Vector.getElem_toList]
    rfl
  have hp := h _ hentry
  rwa [hb] at hp

@[simp] theorem bit8_xor (x y : UInt8) (i : Nat) : bit8 (x ^^^ y) i = (bit8 x i ^^ bit8 y i) :=
  BitVec.getLsbD_xor

/-! ### Amounts below 32 -/

@[simp] theorem toNat_amount32 (n : Fin 32) : n.val.toUInt32.toNat = n.val := by
  have h : n.val.toUInt32.toNat = n.val % 4294967296 := UInt32.toNat_ofNat'
  omega

@[simp] theorem toNat_amount64 (n : Fin 32) : n.val.toUInt64.toNat = n.val := by
  have h : n.val.toUInt64.toNat = n.val % 18446744073709551616 := UInt64.toNat_ofNat'
  omega

/-! ### Rotation -/

/-- Every bit moves up `n` places, and those past the top come back in at the bottom. -/
def rotateLeft (x : UInt32) (n : Fin 32) : UInt32 := ⟨x.toBitVec.rotateLeft n⟩

@[simp] theorem bit32_rotateLeft (x : UInt32) (n : Fin 32) (i : Nat) : bit32 (rotateLeft x n) i
    = if i < n.val then bit32 x (32 - n.val + i) else decide (i < 32) && bit32 x (i - n.val) := by
  simp only [bit32, rotateLeft]
  rw [BitVec.getLsbD_rotateLeft, Nat.mod_eq_of_lt n.isLt, Bool.cond_decide]

theorem rotateLeft_zero (x : UInt32) : rotateLeft x 0 = x := by
  apply eq_of_bit32
  intro i hi
  simp [hi]

/-- A shift by 32 is a shift by 0 here, so the two halves agree at `n = 0`. -/
theorem rotl32_eq_rotateLeft (x : UInt32) (n : Fin 32) :
    rotl32 x n.val.toUInt32 = rotateLeft x n := by
  apply eq_of_bit32
  intro i hi
  have hs : (32 - n.val.toUInt32).toNat = (4294967296 - n.val + 32) % 4294967296 := by
    rw [UInt32.toNat_sub, toNat_amount32]
    rfl
  have hm : (32 - n.val.toUInt32).toNat % 32 = (32 - n.val) % 32 := by omega
  have hx := bit32_of_ge x (i := 32 - n.val + i)
  simp only [rotl32, bit32_or, bit32_shiftLeft, bit32_shiftRight, bit32_rotateLeft, hm,
    toNat_amount32, Nat.mod_eq_of_lt n.isLt]
  by_cases h0 : n.val = 0
  · simp [h0, hi]
  · rw [Nat.mod_eq_of_lt (show 32 - n.val < 32 by omega)]
    grind

end ProofOfWork

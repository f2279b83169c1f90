import Mathlib.Data.List.Induction
import ProofOfWork.Proofs.Digits

/-!
# ProofOfWork.Proofs.BitStrings — bytes as a string of bits

Every byte with its highest bit first.  A string of bits writes a number (`numberOfBits`); whole
bytes can be taken from the string and left out of it as such (`bits_take`, `bits_drop`), and words
of bytes are the numbers that their bits write (`beWord32_eq_bits`, `bits_beBytes64`).
-/

namespace ProofOfWork

/-- The low `w` bits of `x`, the highest of them first. -/
def bitsOf : (w x : Nat) → List Bool
  | 0, _ => []
  | w + 1, x => x.testBit w :: bitsOf w x

/-- The number that bits write, the highest first. -/
def numberOfBits : List Bool → Nat
  | [] => 0
  | b :: bs => b.toNat * 2 ^ bs.length + numberOfBits bs

/-- The bits of a string of bytes. -/
def bits (bytes : List UInt8) : List Bool := bytes.flatMap fun byte => bitsOf 8 byte.toNat

/-! ### Bits of a number -/

@[simp] theorem length_bitsOf (w x : Nat) : (bitsOf w x).length = w := by
  induction w with
  | zero => rfl
  | succ w ih => rw [bitsOf, List.length_cons, ih]

/-- Bits above the lowest `w` are not looked at. -/
theorem bitsOf_mod (w x : Nat) {n : Nat} (h : w ≤ n) : bitsOf w (x % 2 ^ n) = bitsOf w x := by
  induction w with
  | zero => rfl
  | succ w ih =>
    have hbit : (x % 2 ^ n).testBit w = x.testBit w := by
      rw [Nat.testBit_mod_two_pow, decide_eq_true (by omega), Bool.true_and]
    rw [bitsOf, bitsOf, ih (by omega), hbit]

theorem bitsOf_add (m n x : Nat) : bitsOf (m + n) x = bitsOf m (x / 2 ^ n) ++ bitsOf n x := by
  induction m with
  | zero => rw [Nat.zero_add, bitsOf, List.nil_append]
  | succ m ih =>
    rw [Nat.succ_add, bitsOf, bitsOf, ih, Nat.testBit_div_two_pow, Nat.add_comm m n,
      List.cons_append]

theorem numberOfBits_bitsOf (w x : Nat) : numberOfBits (bitsOf w x) = x % 2 ^ w := by
  induction w with
  | zero => rw [Nat.pow_zero, Nat.mod_one, bitsOf, numberOfBits]
  | succ w ih =>
    rw [bitsOf, numberOfBits, ih, length_bitsOf, Nat.mod_pow_succ, Nat.toNat_testBit, Nat.mul_comm,
      Nat.add_comm]

theorem numberOfBits_append (a b : List Bool) :
    numberOfBits (a ++ b) = numberOfBits a * 2 ^ b.length + numberOfBits b := by
  induction a with
  | nil => simp [numberOfBits]
  | cons x a ih =>
    rw [List.cons_append, numberOfBits, numberOfBits, ih, List.length_append, Nat.pow_add]
    ring

/-! ### Bits of bytes -/

theorem bits_append (a b : List UInt8) : bits (a ++ b) = bits a ++ bits b := List.flatMap_append

@[simp] theorem length_bits (l : List UInt8) : (bits l).length = 8 * l.length := by
  induction l with
  | nil => rfl
  | cons x l ih =>
    rw [bits, List.flatMap_cons, List.length_append, length_bitsOf, List.length_cons]
    change 8 + (bits l).length = _
    omega

theorem bits_take (l : List UInt8) (k : Nat) : (bits l).take (8 * k) = bits (l.take k) := by
  by_cases h : k ≤ l.length
  · have hsplit : bits l = bits (l.take k) ++ bits (l.drop k) := by
      rw [← bits_append, List.take_append_drop]
    rw [hsplit]
    exact List.take_left' (by rw [length_bits, List.length_take, Nat.min_eq_left h])
  · rw [List.take_of_length_le (l := l) (by omega),
      List.take_of_length_le (by rw [length_bits]; omega)]

theorem bits_drop (l : List UInt8) (k : Nat) : (bits l).drop (8 * k) = bits (l.drop k) := by
  by_cases h : k ≤ l.length
  · have hsplit : bits l = bits (l.take k) ++ bits (l.drop k) := by
      rw [← bits_append, List.take_append_drop]
    rw [hsplit]
    exact List.drop_left' (by rw [length_bits, List.length_take, Nat.min_eq_left h])
  · rw [List.drop_of_length_le (l := l) (by omega),
      List.drop_of_length_le (by rw [length_bits]; omega)]
    rfl

theorem bits_zeros (n : Nat) : bits (List.replicate n 0) = List.replicate (8 * n) false := by
  induction n with
  | zero => rfl
  | succ n ih =>
    rw [List.replicate_succ, Nat.mul_succ, Nat.add_comm (8 * n),
      ← List.replicate_append_replicate, ← ih]
    rfl

theorem numberOfBits_bits {n : Nat} (v : Vector UInt8 n) :
    numberOfBits (bits v.toList) = numberOf v := by
  have hlist (l : List UInt8) :
      numberOfBits (bits l) = l.foldl (fun x byte => x * 256 + byte.toNat) 0 := by
    induction l using List.reverseRecOn with
    | nil => rfl
    | append_singleton l x ih =>
      have hx : numberOfBits (bitsOf 8 x.toNat) = x.toNat := by
        rw [numberOfBits_bitsOf]
        exact Nat.mod_eq_of_lt x.toNat_lt
      rw [List.foldl_append, bits_append, numberOfBits_append, ih]
      simp [bits, hx]
  rw [hlist, numberOf, Vector.foldl_toList]

/-! ### Words -/

theorem beWord32_eq_bits (b : Vector UInt8 4) :
    beWord32 b = (numberOfBits (bits b.toList)).toUInt32 := by
  rw [beWord32_eq, numberOfBits_bits]

theorem bits_beBytes64 (x : UInt64) : bits (beBytes64 x).toList = bitsOf 64 x.toNat := by
  have hbyte (n : Nat) (y : UInt64) (h : y.toNat = x.toNat / 2 ^ n) :
      bitsOf 8 y.toUInt8.toNat = bitsOf 8 (x.toNat / 2 ^ n) := by
    rw [UInt64.toNat_toUInt8, bitsOf_mod 8 _ (Nat.le_refl 8), h]
  have hshift (n : UInt64) (h : n.toNat < 64) : (x >>> n).toNat = x.toNat / 2 ^ n.toNat := by
    rw [UInt64.toNat_shiftRight, Nat.mod_eq_of_lt h, Nat.shiftRight_eq_div_pow]
  rw [beBytes64, Vector.toList_reverse]
  change bits [(x >>> 56).toUInt8, (x >>> 48).toUInt8, (x >>> 40).toUInt8, (x >>> 32).toUInt8,
    (x >>> 24).toUInt8, (x >>> 16).toUInt8, (x >>> 8).toUInt8, x.toUInt8] = _
  simp only [bits, List.flatMap_cons, List.flatMap_nil, List.append_nil]
  rw [hbyte 56 _ (hshift 56 (by decide)), hbyte 48 _ (hshift 48 (by decide)),
    hbyte 40 _ (hshift 40 (by decide)), hbyte 32 _ (hshift 32 (by decide)),
    hbyte 24 _ (hshift 24 (by decide)), hbyte 16 _ (hshift 16 (by decide)),
    hbyte 8 _ (hshift 8 (by decide)), hbyte 0 x (by simp)]
  rw [bitsOf_add 8 56, bitsOf_add 8 48, bitsOf_add 8 40, bitsOf_add 8 32, bitsOf_add 8 24,
    bitsOf_add 8 16, bitsOf_add 8 8, Nat.pow_zero, Nat.div_one]

end ProofOfWork

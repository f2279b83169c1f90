import Mathlib.Algebra.CharP.Two
import Mathlib.Algebra.Field.ZMod
import Mathlib.RingTheory.AdjoinRoot
import Mathlib.Tactic.ComputeDegree
import Mathlib.Tactic.LinearCombination
import ProofOfWork.Proofs.Aes.Columns

/-!
# ProofOfWork.Proofs.Aes.Field — bytes as the elements of a field

A byte is a polynomial over the field of two elements, with bit `i` for the coefficient of `xⁱ`, and
stands for its class modulo x⁸ + x⁴ + x³ + x + 1.  Sums of bytes are sums of classes, and doubling
is multiplication by `x` (`element_double`); from these two the product of bytes and, byte after
byte, all classes are reached.  That every byte but zero has an inverse is seen on the bytes, since
the substitution table holds the inverses under an affine map; so the classes are a field
(`irreducible_modulus`) and each is that of one byte (`byteEquiv`).
-/

namespace ProofOfWork.Aes

open Polynomial

/-! ### The field -/

noncomputable def modulus : (ZMod 2)[X] := X ^ 8 + X ^ 4 + X ^ 3 + X + 1

abbrev ByteField := AdjoinRoot modulus

/-- The class of `x`. -/
noncomputable abbrev root : ByteField := AdjoinRoot.root modulus

theorem monic_modulus : modulus.Monic := by
  unfold modulus
  monicity!

theorem degree_modulus_ne_zero : modulus.degree ≠ 0 := by
  have hdegree : modulus.natDegree = 8 := by
    unfold modulus
    compute_degree!
  rw [degree_eq_natDegree monic_modulus.ne_zero, hdegree]
  decide

instance : Nontrivial ByteField := AdjoinRoot.nontrivial modulus degree_modulus_ne_zero

theorem two_eq_zero : (2 : ByteField) = 0 := by
  have htwo : algebraMap (ZMod 2) ByteField 2 = algebraMap (ZMod 2) ByteField 0 := rfl
  rwa [map_ofNat, map_zero] at htwo

instance : CharP ByteField 2 := CharTwo.of_one_ne_zero_of_two_eq_zero one_ne_zero two_eq_zero

theorem root_pow_eight : root ^ 8 = root ^ 4 + root ^ 3 + root + 1 := by
  have hroot : AdjoinRoot.mk modulus (X ^ 8 + X ^ 4 + X ^ 3 + X + 1) = 0 := AdjoinRoot.mk_self
  simp only [map_add, map_pow, map_one, AdjoinRoot.mk_X] at hroot
  linear_combination hroot - (root ^ 4 + root ^ 3 + root + 1) * two_eq_zero

/-! ### The class of a byte -/

noncomputable def ofBit (c : Bool) : ByteField := if c then 1 else 0

@[simp] theorem ofBit_false : ofBit false = 0 := rfl

@[simp] theorem ofBit_true : ofBit true = 1 := rfl

theorem ofBit_xor (c d : Bool) : ofBit (c ^^ d) = ofBit c + ofBit d := by
  cases c <;> cases d <;> simp [CharTwo.add_self_eq_zero]

noncomputable def element (b : UInt8) : ByteField :=
  ∑ i : Fin 8, ofBit (bit8 b i.val) * root ^ i.val

theorem element_eq (b : UInt8) : element b = ofBit (bit8 b 0) + ofBit (bit8 b 1) * root
    + ofBit (bit8 b 2) * root ^ 2 + ofBit (bit8 b 3) * root ^ 3 + ofBit (bit8 b 4) * root ^ 4
    + ofBit (bit8 b 5) * root ^ 5 + ofBit (bit8 b 6) * root ^ 6 + ofBit (bit8 b 7) * root ^ 7 := by
  rw [element, Fin.sum_univ_eight]
  simp

theorem element_xor (a b : UInt8) : element (a ^^^ b) = element a + element b := by
  simp only [element, bit8_xor, ofBit_xor, add_mul, Finset.sum_add_distrib]

theorem element_zero : element 0 = 0 := by
  have hsum := element_xor 0 0
  rw [UInt8.xor_self] at hsum
  exact left_eq_add.mp hsum

theorem element_one : element 1 = 1 := by
  have hbits : element 1 = ofBit true + ofBit false * root + ofBit false * root ^ 2
      + ofBit false * root ^ 3 + ofBit false * root ^ 4 + ofBit false * root ^ 5
      + ofBit false * root ^ 6 + ofBit false * root ^ 7 := element_eq 1
  simp [hbits]

/-- What doubling adds for the bit that is shifted out, is the eighth power of `x`. -/
theorem element_reduction : element 0x1b = root ^ 8 := by
  have hbits : element 0x1b = ofBit true + ofBit true * root + ofBit false * root ^ 2
      + ofBit true * root ^ 3 + ofBit true * root ^ 4 + ofBit false * root ^ 5
      + ofBit false * root ^ 6 + ofBit false * root ^ 7 := element_eq 0x1b
  simp [hbits, root_pow_eight]
  ring

theorem bit8_shiftLeft_one (b : UInt8) (i : Nat) :
    bit8 (b <<< 1) i = (decide (i < 8) && !decide (i < 1) && bit8 b (i - 1)) := by
  simp only [bit8, UInt8.toBitVec_shiftLeft]
  rw [BitVec.shiftLeft_eq', BitVec.getLsbD_shiftLeft]
  rfl

theorem carry_eq (b : UInt8) : b >>> 7 = if bit8 b 7 then 1 else 0 := by
  revert b
  apply forall_byte
  decide +kernel

theorem element_double (b : UInt8) : element (double b) = root * element b := by
  have hshift : element (b <<< 1) = root * element b + ofBit (bit8 b 7) * root ^ 8 := by
    simp only [element_eq, bit8_shiftLeft_one]
    simp
    linear_combination -(ofBit (bit8 b 7) * root ^ 8) * two_eq_zero
  have hcarry : element ((b >>> 7) * 0x1b) = ofBit (bit8 b 7) * root ^ 8 := by
    rw [carry_eq]
    cases bit8 b 7
    · simp [element_zero]
    · simp [element_reduction]
  rw [double, element_xor, hshift, hcarry]
  linear_combination ofBit (bit8 b 7) * root ^ 8 * two_eq_zero

theorem element_triple (b : UInt8) : element (triple b) = (root + 1) * element b := by
  rw [triple, element_xor, element_double]
  ring

/-! ### Products of bytes -/

/-- From the highest bit of `a` on, what there is is doubled, and `b` added at every set bit. -/
def times (a b : UInt8) : UInt8 :=
  [7, 6, 5, 4, 3, 2, 1, 0].foldl (fun p i => double p ^^^ if bit8 a i then b else 0) 0

theorem element_ite (c : Bool) (b : UInt8) :
    element (if c then b else 0) = ofBit c * element b := by
  cases c
  · simp [element_zero]
  · simp

theorem element_times (a b : UInt8) : element (times a b) = element a * element b := by
  simp only [times, List.foldl_cons, List.foldl_nil, element_xor, element_double, element_ite,
    element_zero, element_eq a]
  ring

/-- Sums of bytes and doublings reach the class of every polynomial. -/
theorem element_surjective : Function.Surjective element := by
  intro y
  obtain ⟨p, rfl⟩ := AdjoinRoot.mk_surjective y
  induction p using Polynomial.induction_on with
  | C a =>
    have ha : a = 0 ∨ a = 1 := by
      revert a
      decide
    rcases ha with rfl | rfl
    · exact ⟨0, by rw [element_zero, C_0, map_zero]⟩
    · exact ⟨1, by rw [element_one, C_1, map_one]⟩
  | add p q hp hq =>
    obtain ⟨a, ha⟩ := hp
    obtain ⟨b, hb⟩ := hq
    exact ⟨a ^^^ b, by rw [element_xor, ha, hb, map_add]⟩
  | monomial n a h =>
    obtain ⟨b, hb⟩ := h
    refine ⟨double b, ?_⟩
    calc element (double b)
        = AdjoinRoot.mk modulus X * AdjoinRoot.mk modulus (C a * X ^ n) := by
          rw [element_double, hb, AdjoinRoot.mk_X]
      _ = AdjoinRoot.mk modulus (X * (C a * X ^ n)) := (map_mul _ _ _).symm
      _ = AdjoinRoot.mk modulus (C a * X ^ (n + 1)) := congrArg _ (by ring)

/-! ### The substitution -/

def rotateByte (b n : UInt8) : UInt8 := b <<< n ||| b >>> (8 - n)

/-- Bit `i` of the result is the sum of the bits `i`, `i + 4`, `i + 5`, `i + 6` and `i + 7` of the
byte, counted around it, and of bit `i` of the constant. -/
def affine (b : UInt8) : UInt8 :=
  b ^^^ rotateByte b 1 ^^^ rotateByte b 2 ^^^ rotateByte b 3 ^^^ rotateByte b 4 ^^^ 0x63

def unaffine (b : UInt8) : UInt8 := rotateByte b 1 ^^^ rotateByte b 3 ^^^ rotateByte b 6 ^^^ 0x05

theorem affine_unaffine (b : UInt8) : affine (unaffine b) = b := by
  revert b
  apply forall_byte
  decide +kernel

/-- What the table holds for a byte, without its affine map. -/
def inverse (b : UInt8) : UInt8 := unaffine (sub b)

theorem times_inverse (b : UInt8) : times b (inverse b) = if b = 0 then 0 else 1 := by
  refine forall_lookup (p := fun b s => times b (unaffine s) = if b = 0 then 0 else 1) sbox ?_ b
  decide +kernel

theorem element_mul_inverse {b : UInt8} (h : b ≠ 0) : element b * element (inverse b) = 1 := by
  rw [← element_times, times_inverse, if_neg h, element_one]

/-! ### Every class is that of one byte -/

theorem element_injective : Function.Injective element := by
  intro a b hab
  by_contra hne
  have hsum : a ^^^ b ≠ 0 := fun h => hne (UInt8.xor_eq_zero_iff.mp h)
  have hone := element_mul_inverse hsum
  rw [element_xor, hab, CharTwo.add_self_eq_zero, zero_mul] at hone
  exact zero_ne_one hone

theorem isField_byteField : IsField ByteField where
  exists_pair_ne := ⟨0, 1, zero_ne_one⟩
  mul_comm := mul_comm
  mul_inv_cancel := by
    intro y hy
    obtain ⟨b, rfl⟩ := element_surjective y
    have hb : b ≠ 0 := by
      rintro rfl
      exact hy element_zero
    exact ⟨element (inverse b), element_mul_inverse hb⟩

theorem irreducible_modulus : Irreducible modulus := by
  have hmax : (Ideal.span {modulus}).IsMaximal :=
    Ideal.Quotient.maximal_of_isField _ isField_byteField
  exact ((Ideal.span_singleton_prime monic_modulus.ne_zero).mp hmax.isPrime).irreducible

instance : Fact (Irreducible modulus) := ⟨irreducible_modulus⟩

noncomputable def byteEquiv : UInt8 ≃ ByteField :=
  Equiv.ofBijective element ⟨element_injective, element_surjective⟩

/-- Zero has none in the field, and is taken for its own there as on the bytes. -/
theorem element_inverse (b : UInt8) : element (inverse b) = (element b)⁻¹ := by
  by_cases hb : b = 0
  · have hzero : inverse 0 = 0 := by decide
    rw [hb, hzero, element_zero, inv_zero]
  · exact eq_inv_of_mul_eq_one_right (element_mul_inverse hb)

end ProofOfWork.Aes

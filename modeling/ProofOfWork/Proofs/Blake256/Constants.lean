import Mathlib.Analysis.SpecialFunctions.Complex.Arctan
import Mathlib.Analysis.SpecialFunctions.Trigonometric.Arctan
import Mathlib.Analysis.SpecificLimits.Normed

/-!
# ProofOfWork.Proofs.Blake256.Constants — the constants and the orders of BLAKE-256

The constants are the first sixteen words of the fraction of π, cut out of one number.  That it holds
the bits of π is shown with two series of the arctangent, whose sums below and above π (`pi_bounds`)
are so close together that they leave one choice for the bits (`floor_pi`, `constant_eq_floor`).  The
orders of the rounds are numbers as well, with a hexadecimal digit for each place.
-/

open Filter Topology

namespace ProofOfWork.Finisher.Blake256.Standard

/-! ### Bits of π -/

/-- The whole part of `2 ^ 512 * π`. -/
def piBits : Nat :=
  0x3243f6a8885a308d313198a2e03707344a4093822299f31d0082efa98ec4e6c89 * 2 ^ 256 +
  0x452821e638d01377be5466cf34e90c6cc0ac29b7c97c50dd3f84d5b5b5470917

/-- The first `n` terms of the series of the arctangent. -/
def arctanSum (x : ℚ) (n : Nat) : ℚ :=
  ∑ k ∈ Finset.range n, (-1) ^ k * (x ^ (2 * k + 1) / (2 * k + 1))

section Arctan

variable {x : ℚ} (h0 : 0 < x) (h1 : x < 1)
include h0 h1

theorem tendsto_arctanSum : Tendsto (fun n => ∑ k ∈ Finset.range n,
    (-1 : ℝ) ^ k * ((x : ℝ) ^ (2 * k + 1) / (2 * k + 1))) atTop (𝓝 (Real.arctan x)) := by
  have hx : ‖(x : ℝ)‖ < 1 := by
    rw [Real.norm_of_nonneg (by positivity)]
    exact_mod_cast h1
  have hsum := (Real.hasSum_arctan hx).tendsto_sum_nat
  simpa only [mul_div_assoc, Nat.cast_add, Nat.cast_mul, Nat.cast_ofNat, Nat.cast_one] using hsum

theorem antitone_terms : Antitone fun k : Nat => (x : ℝ) ^ (2 * k + 1) / (2 * k + 1) := by
  have hpos : (0 : ℝ) < x := by exact_mod_cast h0
  have hle : (x : ℝ) ≤ 1 := by exact_mod_cast h1.le
  intro j k hjk
  have hpow : (x : ℝ) ^ (2 * k + 1) ≤ (x : ℝ) ^ (2 * j + 1) :=
    pow_le_pow_of_le_one hpos.le hle (by omega)
  dsimp only
  gcongr

/-- The signs alternate, so that an even number of terms falls short. -/
theorem arctanSum_le (m : Nat) : (arctanSum x (2 * m) : ℝ) ≤ Real.arctan x := by
  have hle := (antitone_terms h0 h1).alternating_series_le_tendsto (tendsto_arctanSum h0 h1) m
  rw [arctanSum]
  push_cast
  exact hle

theorem le_arctanSum (m : Nat) : Real.arctan x ≤ (arctanSum x (2 * m + 1) : ℝ) := by
  have hle := (antitone_terms h0 h1).tendsto_le_alternating_series (tendsto_arctanSum h0 h1) m
  rw [arctanSum]
  push_cast
  exact hle

end Arctan

/-- A quarter of π is four times the arctangent of a fifth less that of the 239th part. -/
theorem pi_bounds (m n : Nat) :
    ((16 * arctanSum 5⁻¹ (2 * m) - 4 * arctanSum 239⁻¹ (2 * n + 1) : ℚ) : ℝ) ≤ Real.pi ∧
      Real.pi ≤ ((16 * arctanSum 5⁻¹ (2 * m + 1) - 4 * arctanSum 239⁻¹ (2 * n) : ℚ) : ℝ) := by
  have hpi : Real.pi = 16 * Real.arctan (5⁻¹ : ℚ) - 4 * Real.arctan (239⁻¹ : ℚ) := by
    have hquarter := Real.four_mul_arctan_inv_5_sub_arctan_inv_239
    push_cast
    linarith
  have hlow := arctanSum_le (x := 5⁻¹) (by norm_num) (by norm_num) m
  have hhigh := le_arctanSum (x := 5⁻¹) (by norm_num) (by norm_num) m
  have hlow' := arctanSum_le (x := 239⁻¹) (by norm_num) (by norm_num) n
  have hhigh' := le_arctanSum (x := 239⁻¹) (by norm_num) (by norm_num) n
  simp only [hpi, Rat.cast_sub, Rat.cast_mul, Rat.cast_ofNat]
  constructor <;> linarith only [hlow, hhigh, hlow', hhigh']

/-- Two bounds that have one whole part, once they are scaled, leave no other to what is between. -/
theorem floor_mul_eq {s low high : ℚ} {y : ℝ} {n : Nat} (hs : 0 ≤ s) (hlow : (low : ℝ) ≤ y)
    (hhigh : y ≤ high) (hn : n ≤ s * low) (hn' : s * high < n + 1) : ⌊(s : ℝ) * y⌋₊ = n := by
  have hs' : (0 : ℝ) ≤ s := by exact_mod_cast hs
  have hbelow : (n : ℝ) ≤ s * low := by exact_mod_cast hn
  have habove : (s : ℝ) * high < n + 1 := by exact_mod_cast hn'
  have hmul := mul_le_mul_of_nonneg_left hlow hs'
  have hmul' := mul_le_mul_of_nonneg_left hhigh hs'
  exact (Nat.floor_eq_iff (by linarith [n.cast_nonneg (α := ℝ)])).mpr ⟨by linarith, by linarith⟩

theorem floor_pi : ⌊2 ^ 512 * Real.pi⌋₊ = piBits := by
  obtain ⟨hlow, hhigh⟩ := pi_bounds 56 16
  have hscale : (0 : ℚ) ≤ 2 ^ 512 := by positivity
  have hfloor : ⌊((2 ^ 512 : ℚ) : ℝ) * Real.pi⌋₊ = piBits :=
    floor_mul_eq hscale hlow hhigh (by decide +kernel) (by decide +kernel)
  rwa [Rat.cast_pow, Rat.cast_ofNat] at hfloor

/-! ### Constants and orders -/

/-- The words of the fraction of π; what stands above a word is cut off. -/
def constant (i : Fin 16) : UInt32 := (piBits / 2 ^ (32 * (15 - i.val))).toUInt32

theorem constant_eq_floor (i : Fin 16) :
    constant i = ⌊2 ^ (32 * (i.val + 1)) * Real.pi⌋₊.toUInt32 := by
  have hbits : 2 ^ (32 * (i.val + 1)) * Real.pi * ((2 ^ (32 * (15 - i.val)) : Nat) : ℝ)
      = 2 ^ 512 * Real.pi := by
    have hplaces : 32 * (i.val + 1) + 32 * (15 - i.val) = 512 := by omega
    rw [Nat.cast_pow, Nat.cast_ofNat, mul_right_comm, ← pow_add, hplaces]
  have hpos : 2 ^ (32 * (15 - i.val)) ≠ 0 := by positivity
  rw [constant, ← floor_pi, ← hbits, Nat.mul_cast_floor_div_cancel hpos]

/-- The orders in which the rounds take the words of a block. -/
def orders : Vector Nat 10 :=
  #v[0x0123456789abcdef, 0xea489fd61c02b753, 0xb8c052fdae367194, 0x7931dcbe265a40f8,
    0x905724afe1bc683d, 0x2c6a0b834d75fe19, 0xc51fed4a0763928b, 0xdb7ec13950f4862a,
    0x6fe9b308c2d714a5, 0xa2847615fb9e3cd0]

/-- The hexadecimal digit at place `k` of sixteen. -/
def hexDigit (n : Nat) (k : Fin 16) : Fin 16 :=
  ⟨n / 16 ^ (15 - k.val) % 16, Nat.mod_lt _ (by decide)⟩

theorem row_lt (r : Nat) : r % 10 < 10 := Nat.mod_lt r (by decide)

/-- The word that round `r` takes at place `k`. -/
def order (r : Nat) (k : Fin 16) : Fin 16 := hexDigit (orders.get ⟨r % 10, row_lt r⟩) k

end ProofOfWork.Finisher.Blake256.Standard

/-!
# ProofOfWork.WideProduct — the upper half of a product of two words
-/

namespace ProofOfWork

/-- The upper 64 bits of the 128-bit product, from the products of the 32-bit halves. -/
def mulHigh (x y : UInt64) : UInt64 :=
  let xl := x &&& 0xffffffff
  let xh := x >>> 32
  let yl := y &&& 0xffffffff
  let yh := y >>> 32
  let m := xh * yl + (xl * yl) >>> 32
  let n := xl * yh + (m &&& 0xffffffff)
  xh * yh + m >>> 32 + n >>> 32

private theorem high_of_halves {a b c d : Nat} (ha : a < 4294967296) (hb : b < 4294967296)
    (hc : c < 4294967296) (hd : d < 4294967296) :
    b * c + a * c / 4294967296 < 18446744073709551616 ∧
    a * d + (b * c + a * c / 4294967296) % 4294967296 < 18446744073709551616 ∧
    b * d + (b * c + a * c / 4294967296) / 4294967296
      + (a * d + (b * c + a * c / 4294967296) % 4294967296) / 4294967296
      = (b * 4294967296 + a) * (d * 4294967296 + c) / 18446744073709551616 := by
  have h (p q : Nat) (hp : p < 4294967296) (hq : q < 4294967296) : p * q ≤ (4294967296 - 1) * (4294967296 - 1) :=
    Nat.mul_le_mul (by omega) (by omega)
  have hac := h a c ha hc
  have hbc := h b c hb hc
  have had := h a d ha hd
  have e : (b * 4294967296 + a) * (d * 4294967296 + c)
      = b * d * 18446744073709551616 + (b * c + a * d) * 4294967296 + a * c := by
    grind
  rw [e]
  generalize a * c = p at *
  generalize b * c = q at *
  generalize a * d = r at *
  generalize b * d = s at *
  omega

theorem toNat_mulHigh (x y : UInt64) : (mulHigh x y).toNat = x.toNat * y.toNat / UInt64.size := by
  have hx := x.toNat_lt
  have hy := y.toNat_lt
  have hxl : x.toNat % 4294967296 < 4294967296 := Nat.mod_lt _ (by decide)
  have hyl : y.toNat % 4294967296 < 4294967296 := Nat.mod_lt _ (by decide)
  have hxh : x.toNat / 4294967296 < 4294967296 := by omega
  have hyh : y.toNat / 4294967296 < 4294967296 := by omega
  obtain ⟨h1, h2, h3⟩ := high_of_halves hxl hxh hyl hyh
  have low (z : UInt64) : (z &&& 0xffffffff).toNat = z.toNat % 4294967296 := by
    rw [UInt64.toNat_and]
    exact Nat.and_two_pow_sub_one_eq_mod z.toNat 32
  have high (z : UInt64) : (z >>> 32).toNat = z.toNat / 4294967296 := by
    rw [UInt64.toNat_shiftRight]
    exact Nat.shiftRight_eq_div_pow z.toNat 32
  have fits (p q : UInt64) (hp : p.toNat < 4294967296) (hq : q.toNat < 4294967296) :
      (p * q).toNat = p.toNat * q.toNat := by
    rw [UInt64.toNat_mul, Nat.mod_eq_of_lt]
    exact Nat.lt_of_lt_of_le (Nat.mul_lt_mul'' hp hq) (by decide)
  simp only [mulHigh, UInt64.toNat_add, high, low, fits, hxl, hyl, hxh, hyh, Nat.reducePow]
  have hs : x.toNat / 4294967296 * (y.toNat / 4294967296) ≤ (4294967296 - 1) * (4294967296 - 1) :=
    Nat.mul_le_mul (by omega) (by omega)
  rw [Nat.div_add_mod' x.toNat, Nat.div_add_mod' y.toNat] at h3
  have hp : x.toNat * y.toNat / 18446744073709551616 < 18446744073709551616 :=
    Nat.div_lt_of_lt_mul (Nat.mul_lt_mul'' hx hy)
  rw [Nat.mod_eq_of_lt h1, Nat.mod_eq_of_lt h2, Nat.mod_add_mod, h3, Nat.mod_eq_of_lt hp]

end ProofOfWork

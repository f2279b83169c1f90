import Mathlib.Algebra.Ring.Nat
import Mathlib.Data.Nat.Digits.Defs
import ProofOfWork.Proofs.Blocks

/-!
# ProofOfWork.Proofs.Digits — the bytes of a word are its digits to base 256

Put together by shifts, a word is the number that its bytes write, and taken apart by shifts it
gives the digits of that number.
-/

namespace ProofOfWork

/-- Bits put above those of a number are added to it. -/
theorem or_shiftLeft {k lo : Nat} (h : lo < 2 ^ k) (hi : Nat) :
    lo ||| hi <<< k = hi * 2 ^ k + lo := by
  rw [Nat.shiftLeft_eq, Nat.or_comm, Nat.mul_comm, ← Nat.two_pow_add_eq_or_of_lt h]

/-- A byte moved up inside a word of 32 bits loses nothing. -/
theorem toNat_byte_shiftLeft (b : UInt8) {n : UInt32} (hn : n.toNat ≤ 24) :
    (b.toUInt32 <<< n).toNat = b.toNat <<< n.toNat := by
  have hb := b.toNat_lt
  have hpow : 2 ^ n.toNat ≤ 2 ^ 24 := Nat.pow_le_pow_right (by decide) hn
  rw [UInt32.toNat_shiftLeft, UInt8.toNat_toUInt32, Nat.mod_eq_of_lt (show n.toNat < 32 by omega)]
  apply Nat.mod_eq_of_lt
  rw [Nat.shiftLeft_eq]
  exact Nat.lt_of_le_of_lt (Nat.mul_le_mul (Nat.le_of_lt_succ hb) hpow) (by decide)

/-- The number that bytes write, the first one highest. -/
def numberOf {n : Nat} (b : Vector UInt8 n) : Nat := b.foldl (fun x byte => x * 256 + byte.toNat) 0

theorem toNat_beWord32 (b : Vector UInt8 4) : (beWord32 b).toNat = numberOf b := by
  match b with
  | ⟨⟨[b0, b1, b2, b3]⟩, _⟩ =>
    have h0 := b0.toNat_lt
    have h1 := b1.toNat_lt
    have h2 := b2.toNat_lt
    have h3 := b3.toNat_lt
    change (b3.toUInt32 ||| b2.toUInt32 <<< 8 ||| b1.toUInt32 <<< 16 ||| b0.toUInt32 <<< 24).toNat
      = (((0 * 256 + b0.toNat) * 256 + b1.toNat) * 256 + b2.toNat) * 256 + b3.toNat
    simp only [UInt32.toNat_or, UInt8.toNat_toUInt32]
    rw [toNat_byte_shiftLeft _ (by decide), toNat_byte_shiftLeft _ (by decide),
      toNat_byte_shiftLeft _ (by decide)]
    change b3.toNat ||| b2.toNat <<< 8 ||| b1.toNat <<< 16 ||| b0.toNat <<< 24 = _
    rw [or_shiftLeft (show b3.toNat < 2 ^ 8 by omega), or_shiftLeft (k := 16) (by omega),
      or_shiftLeft (k := 24) (by omega)]
    omega

theorem beWord32_eq (b : Vector UInt8 4) : beWord32 b = (numberOf b).toUInt32 := by
  rw [← toNat_beWord32]
  exact UInt32.ofNat_toNat.symm

theorem getElem_beBytes32 (x : UInt32) {k : Nat} (hk : k < 4) :
    (beBytes32 x)[k] = (x.toNat / 256 ^ (3 - k)).toUInt8 := by
  apply UInt8.toNat_inj.mp
  have hcases : k = 0 ∨ k = 1 ∨ k = 2 ∨ k = 3 := by omega
  rcases hcases with rfl | rfl | rfl | rfl <;>
    simp [beBytes32, UInt32.toNat_shiftRight, Nat.shiftRight_eq_div_pow]

theorem beWord32_beBytes32 (x : UInt32) : beWord32 (beBytes32 x) = x := by
  have hx := x.toNat_lt
  apply UInt32.toNat_inj.mp
  rw [toNat_beWord32]
  simp [numberOf, beBytes32, UInt32.toNat_shiftRight, Nat.shiftRight_eq_div_pow]
  omega

theorem beBytes32_beWord32 (b : Vector UInt8 4) : beBytes32 (beWord32 b) = b := by
  apply Vector.ext
  intro k hk
  apply UInt8.toNat_inj.mp
  rw [getElem_beBytes32 _ hk, toNat_beWord32]
  match b with
  | ⟨⟨[b0, b1, b2, b3]⟩, _⟩ =>
    have h0 := b0.toNat_lt
    have h1 := b1.toNat_lt
    have h2 := b2.toNat_lt
    have h3 := b3.toNat_lt
    have hcases : k = 0 ∨ k = 1 ∨ k = 2 ∨ k = 3 := by omega
    rcases hcases with rfl | rfl | rfl | rfl <;> simp [numberOf] <;> omega

/-- The other byte order is the same word backwards. -/
theorem leBytes32_eq_reverse (x : UInt32) : leBytes32 x = (beBytes32 x).reverse := by
  simp [leBytes32, beBytes32]

theorem leWord32_eq_reverse (b : Vector UInt8 4) : leWord32 b = beWord32 b.reverse := by
  simp [leWord32, beWord32]

namespace ByteOrder

variable (order : ByteOrder)

theorem read_write (x : UInt32) : order.read (order.write x) = x := by
  cases order with
  | little =>
    rw [read, write, leWord32_eq_reverse, leBytes32_eq_reverse, Vector.reverse_reverse,
      beWord32_beBytes32]
  | big => exact beWord32_beBytes32 x

theorem write_read (b : Vector UInt8 4) : order.write (order.read b) = b := by
  cases order with
  | little =>
    rw [read, write, leWord32_eq_reverse, leBytes32_eq_reverse, beBytes32_beWord32,
      Vector.reverse_reverse]
  | big => exact beBytes32_beWord32 b

/-- The byte of a word that comes at place `k`, as a digit to base 256. -/
def byteAt (x : UInt32) (k : Nat) : UInt8 :=
  match order with
  | little => (x.toNat / 256 ^ k).toUInt8
  | big => (x.toNat / 256 ^ (3 - k)).toUInt8

theorem getElem_write (x : UInt32) {k : Nat} (hk : k < 4) :
    (order.write x)[k] = order.byteAt x k := by
  cases order with
  | little =>
    simp only [write, leBytes32_eq_reverse, Vector.getElem_reverse,
      getElem_beBytes32 x (show 4 - 1 - k < 4 by omega), byteAt]
    rw [show 3 - (4 - 1 - k) = k by omega]
  | big => exact getElem_beBytes32 x hk

end ByteOrder

/-! ### Words of 64 bits, lowest byte first -/

theorem toNat_byte_shiftLeft64 (b : UInt8) {n : UInt64} (hn : n.toNat ≤ 56) :
    (b.toUInt64 <<< n).toNat = b.toNat <<< n.toNat := by
  have hb := b.toNat_lt
  have hpow : 2 ^ n.toNat ≤ 2 ^ 56 := Nat.pow_le_pow_right (by decide) hn
  rw [UInt64.toNat_shiftLeft, UInt8.toNat_toUInt64, Nat.mod_eq_of_lt (show n.toNat < 64 by omega)]
  apply Nat.mod_eq_of_lt
  rw [Nat.shiftLeft_eq]
  exact Nat.lt_of_le_of_lt (Nat.mul_le_mul (Nat.le_of_lt_succ hb) hpow) (by decide)

/-- The number that bytes write, the first one lowest. -/
def littleNumber {n : Nat} (b : Vector UInt8 n) : Nat :=
  Nat.ofDigits 256 (b.toList.map UInt8.toNat)

theorem toNat_leWord64 (b : Vector UInt8 8) : (leWord64 b).toNat = littleNumber b := by
  match b with
  | ⟨⟨[b0, b1, b2, b3, b4, b5, b6, b7]⟩, _⟩ =>
    have h0 := b0.toNat_lt
    have h1 := b1.toNat_lt
    have h2 := b2.toNat_lt
    have h3 := b3.toNat_lt
    have h4 := b4.toNat_lt
    have h5 := b5.toNat_lt
    have h6 := b6.toNat_lt
    have h7 := b7.toNat_lt
    change (b0.toUInt64 ||| b1.toUInt64 <<< 8 ||| b2.toUInt64 <<< 16 ||| b3.toUInt64 <<< 24 |||
      b4.toUInt64 <<< 32 ||| b5.toUInt64 <<< 40 ||| b6.toUInt64 <<< 48 ||| b7.toUInt64 <<< 56).toNat
      = Nat.ofDigits 256 [b0.toNat, b1.toNat, b2.toNat, b3.toNat, b4.toNat, b5.toNat, b6.toNat,
        b7.toNat]
    simp only [UInt64.toNat_or, UInt8.toNat_toUInt64, Nat.ofDigits_cons, Nat.ofDigits_nil]
    rw [toNat_byte_shiftLeft64 _ (by decide), toNat_byte_shiftLeft64 _ (by decide),
      toNat_byte_shiftLeft64 _ (by decide), toNat_byte_shiftLeft64 _ (by decide),
      toNat_byte_shiftLeft64 _ (by decide), toNat_byte_shiftLeft64 _ (by decide),
      toNat_byte_shiftLeft64 _ (by decide)]
    change b0.toNat ||| b1.toNat <<< 8 ||| b2.toNat <<< 16 ||| b3.toNat <<< 24 |||
      b4.toNat <<< 32 ||| b5.toNat <<< 40 ||| b6.toNat <<< 48 ||| b7.toNat <<< 56 = _
    rw [or_shiftLeft (show b0.toNat < 2 ^ 8 by omega), or_shiftLeft (k := 16) (by omega),
      or_shiftLeft (k := 24) (by omega), or_shiftLeft (k := 32) (by omega),
      or_shiftLeft (k := 40) (by omega), or_shiftLeft (k := 48) (by omega),
      or_shiftLeft (k := 56) (by omega)]
    omega

theorem getElem_leBytes64 (x : UInt64) {k : Nat} (hk : k < 8) :
    (leBytes64 x)[k] = (x.toNat / 256 ^ k).toUInt8 := by
  apply UInt8.toNat_inj.mp
  have hcases : k = 0 ∨ k = 1 ∨ k = 2 ∨ k = 3 ∨ k = 4 ∨ k = 5 ∨ k = 6 ∨ k = 7 := by omega
  rcases hcases with rfl | rfl | rfl | rfl | rfl | rfl | rfl | rfl <;>
    simp [leBytes64, UInt64.toNat_shiftRight, Nat.shiftRight_eq_div_pow]

theorem getElem_beBytes64 (x : UInt64) {k : Nat} (hk : k < 8) :
    (beBytes64 x)[k] = (x.toNat / 256 ^ (7 - k)).toUInt8 := by
  have hmirror : 8 - 1 - k < 8 := by omega
  rw [beBytes64, Vector.getElem_reverse, getElem_leBytes64 x hmirror]

theorem leWord64_leBytes64 (x : UInt64) : leWord64 (leBytes64 x) = x := by
  have hx := x.toNat_lt
  apply UInt64.toNat_inj.mp
  rw [toNat_leWord64]
  simp [littleNumber, leBytes64, Nat.ofDigits_cons, UInt64.toNat_shiftRight,
    Nat.shiftRight_eq_div_pow]
  omega

theorem leBytes64_leWord64 (b : Vector UInt8 8) : leBytes64 (leWord64 b) = b := by
  apply Vector.ext
  intro k hk
  apply UInt8.toNat_inj.mp
  rw [getElem_leBytes64 _ hk, toNat_leWord64]
  match b with
  | ⟨⟨[b0, b1, b2, b3, b4, b5, b6, b7]⟩, _⟩ =>
    have h0 := b0.toNat_lt
    have h1 := b1.toNat_lt
    have h2 := b2.toNat_lt
    have h3 := b3.toNat_lt
    have h4 := b4.toNat_lt
    have h5 := b5.toNat_lt
    have h6 := b6.toNat_lt
    have h7 := b7.toNat_lt
    have hcases : k = 0 ∨ k = 1 ∨ k = 2 ∨ k = 3 ∨ k = 4 ∨ k = 5 ∨ k = 6 ∨ k = 7 := by omega
    rcases hcases with rfl | rfl | rfl | rfl | rfl | rfl | rfl | rfl <;>
      simp [littleNumber, Nat.ofDigits_cons] <;> omega

/-- The words of a vector of bytes write the number that its bytes write. -/
theorem ofDigits_words64 {n : Nat} (v : Vector UInt8 (8 * n)) :
    Nat.ofDigits (256 ^ 8) ((words64 v).toList.map UInt64.toNat) = littleNumber v := by
  have front (k : Nat) (hk : k ≤ n) :
      Nat.ofDigits (256 ^ 8) (((words64 v).toList.map UInt64.toNat).take k)
        = Nat.ofDigits 256 ((v.toList.map UInt8.toNat).take (8 * k)) := by
    induction k with
    | zero => simp
    | succ k ih =>
      have hslice : ((v.toList.map UInt8.toNat).drop (8 * k)).take 8
          = (slice v (8 * k) 8 (by omega)).toList.map UInt8.toNat := by
        rw [toList_slice, List.map_take, List.map_drop]
      have hword : ((words64 v).toList.map UInt64.toNat)[k]?
          = some (littleNumber (slice v (8 * k) 8 (by omega))) := by
        rw [List.getElem?_map, Vector.getElem?_toList, words64, Vector.getElem?_ofFn,
          dif_pos (show k < n by omega), Option.map_some, toNat_leWord64]
      rw [List.take_add_one, Nat.ofDigits_append, ih (by omega), hword, Nat.mul_succ, List.take_add,
        Nat.ofDigits_append, hslice, littleNumber, Option.toList_some, Nat.ofDigits_singleton]
      congr 2
      rw [List.length_take, List.length_take, List.length_map, List.length_map, Vector.length_toList,
        Vector.length_toList, Nat.min_eq_left (by omega), Nat.min_eq_left (by omega), ← Nat.pow_mul]
  have hall := front n (Nat.le_refl n)
  rw [List.take_of_length_le (by simp), List.take_of_length_le (by simp)] at hall
  exact hall

end ProofOfWork

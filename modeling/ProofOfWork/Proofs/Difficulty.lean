import ProofOfWork.Difficulty
import ProofOfWork.Proofs.Digits

/-!
# ProofOfWork.Proofs.Difficulty — the carry out of the last word decides the bound

After any number of words the carry is the product of the number they write with the difficulty,
less what their places hold (`foldl_carryOut`): the lower halves that are dropped on the way never
matter.  So the last carry is zero where the whole product stays below `2 ^ 256`.  A carry is never
above the difficulty's width, and a product with a carry added fits 128 bits (`carryOut?_eq`).
-/

namespace ProofOfWork

variable {difficulty : UInt64}

/-! ### The carry -/

theorem foldl_carryOut (words : List UInt64) (carry : Nat) :
    words.foldl (carryOut difficulty) carry
      = (Nat.ofDigits UInt64.size (words.map UInt64.toNat) * difficulty.toNat + carry)
        / UInt64.size ^ words.length := by
  induction words generalizing carry with
  | nil => simp
  | cons word words ih =>
    have hsplit : (word.toNat + UInt64.size * Nat.ofDigits UInt64.size (words.map UInt64.toNat))
          * difficulty.toNat + carry
        = word.toNat * difficulty.toNat + carry
          + UInt64.size * (Nat.ofDigits UInt64.size (words.map UInt64.toNat) * difficulty.toNat) := by
      rw [Nat.add_mul, Nat.mul_assoc, Nat.add_right_comm]
    rw [List.foldl_cons, ih, List.map_cons, Nat.ofDigits_cons, List.length_cons, Nat.pow_succ',
      ← Nat.div_div_eq_div_mul, hsplit, Nat.add_mul_div_left _ _ (by decide), carryOut, Nat.add_comm]

theorem foldl_carryOut_digest (h : Digest) :
    (words64 (n := 4) h).foldl (carryOut difficulty) 0
      = littleNumber h * difficulty.toNat / 2 ^ 256 := by
  have hwords : Nat.ofDigits UInt64.size ((words64 (n := 4) h).toList.map UInt64.toNat)
      = littleNumber h := ofDigits_words64 (n := 4) h
  rw [← Vector.foldl_toList, foldl_carryOut, hwords, Vector.length_toList]
  rfl

/-- A digest meets a difficulty where their product is below `2 ^ 256`. -/
theorem meetsDifficulty_iff {h : Digest} :
    meetsDifficulty h difficulty = true ↔ littleNumber h * difficulty.toNat < 2 ^ 256 := by
  rw [meetsDifficulty, foldl_carryOut_digest, beq_iff_eq, Nat.div_eq_zero_iff_lt (by decide)]

/-! ### Room for the products -/

/-- A number that fits 128 bits. -/
def wide? (x : Nat) : Option Nat := if x < UInt64.size * UInt64.size then some x else none

/-- The carry out of a word, with a check of every result for the room it needs. -/
def carryOut? (difficulty : UInt64) (carry : Nat) (word : UInt64) : Option Nat := do
  let product ← wide? (word.toNat * difficulty.toNat)
  let sum ← wide? (product + carry)
  return sum / UInt64.size

/-- The decision with all checks made; none where a check fails. -/
def meetsDifficulty? (digest : Digest) (difficulty : UInt64) : Option Bool :=
  ((words64 (n := 4) digest).toList.foldlM (carryOut? difficulty) 0).map (· == 0)

theorem wide?_eq {x : Nat} (h : x < UInt64.size * UInt64.size) : wide? x = some x := if_pos h

/-- A word's product with a word in it has room for one word more. -/
theorem mul_add_lt {a b carry : Nat} (ha : a < UInt64.size) (hb : b < UInt64.size)
    (hc : carry < UInt64.size) : a * b + carry < UInt64.size * UInt64.size := by
  have hle : a * b ≤ (UInt64.size - 1) * (UInt64.size - 1) :=
    Nat.mul_le_mul (Nat.le_pred_of_lt ha) (Nat.le_pred_of_lt hb)
  unfold UInt64.size at *
  omega

theorem carryOut?_eq {carry : Nat} (hc : carry < UInt64.size) (word : UInt64) :
    carryOut? difficulty carry word = some (carryOut difficulty carry word)
      ∧ carryOut difficulty carry word < UInt64.size := by
  have hsum := mul_add_lt word.toNat_lt_size difficulty.toNat_lt_size hc
  refine ⟨?_, Nat.div_lt_of_lt_mul hsum⟩
  rw [carryOut?, wide?_eq (Nat.lt_of_le_of_lt (Nat.le_add_right _ carry) hsum)]
  change (wide? (word.toNat * difficulty.toNat + carry)).bind _ = _
  rw [wide?_eq hsum]
  rfl

theorem foldlM_carryOut? (words : List UInt64) {carry : Nat} (hc : carry < UInt64.size) :
    words.foldlM (carryOut? difficulty) carry = some (words.foldl (carryOut difficulty) carry) := by
  induction words generalizing carry with
  | nil => rfl
  | cons word words ih =>
    obtain ⟨hstep, hnext⟩ := @carryOut?_eq difficulty carry hc word
    rw [List.foldlM_cons, hstep, List.foldl_cons]
    exact ih hnext

theorem meetsDifficulty?_eq (h : Digest) :
    meetsDifficulty? h difficulty = some (meetsDifficulty h difficulty) := by
  rw [meetsDifficulty?, foldlM_carryOut? _ (by decide), Vector.foldl_toList]
  rfl

/-! ### The bound -/

/-- The decision is exact: a digest, read lowest byte first, meets a difficulty where their product
is below `2 ^ 256`, and no result on the way outgrows 128 bits.  So a digest that is no greater meets
every difficulty that is no greater. -/
theorem meetsDifficulty_exact (h : Digest) (d : UInt64) :
    (meetsDifficulty h d = true ↔ littleNumber h * d.toNat < 2 ^ 256) ∧
    meetsDifficulty? h d = some (meetsDifficulty h d) ∧
    ∀ (h' : Digest) (d' : UInt64), littleNumber h' ≤ littleNumber h → d' ≤ d →
      meetsDifficulty h d = true → meetsDifficulty h' d' = true := by
  refine ⟨meetsDifficulty_iff, meetsDifficulty?_eq h, ?_⟩
  intro h' d' hh hd hmeets
  rw [meetsDifficulty_iff] at hmeets ⊢
  exact Nat.lt_of_le_of_lt (Nat.mul_le_mul hh hd) hmeets

/-- The greatest digest that meets 2 has its top bit clear; one with that bit alone does not. -/
theorem meetsDifficulty_exact_half :
    let greatest : Digest := (Vector.replicate 32 0xff).set 31 0x7f
    let above : Digest := (Vector.replicate 32 0).set 31 0x80
    littleNumber above = littleNumber greatest + 1 ∧ (1 : UInt64) ≤ 2 ∧
      meetsDifficulty greatest 2 = true ∧ meetsDifficulty above 2 = false ∧
      meetsDifficulty (Vector.replicate 32 0) 1 = true := by
  intro greatest above
  have hnumber : littleNumber greatest = 2 ^ 255 - 1 := by decide +kernel
  have habove : littleNumber above = 2 ^ 255 := by decide +kernel
  have hzero : littleNumber (Vector.replicate 32 0 : Digest) = 0 := by decide +kernel
  obtain ⟨hmeets, -, hlower⟩ := meetsDifficulty_exact greatest 2
  obtain ⟨hrefuses, -, -⟩ := meetsDifficulty_exact above 2
  have hgreatest : meetsDifficulty greatest 2 = true := by
    rw [hmeets, hnumber]
    decide
  refine ⟨by rw [hnumber, habove]; rfl, by decide, hgreatest, ?_, ?_⟩
  · rw [← Bool.not_eq_true, hrefuses, habove]
    decide
  · exact hlower _ 1 (by rw [hzero]; exact Nat.zero_le _) (by decide) hgreatest

end ProofOfWork

import Mathlib.Analysis.Real.Sqrt
import ProofOfWork.Cryptonight.IntegerStep

/-!
# ProofOfWork.Proofs.Cryptonight.IntegerStep — the division and the root of variant 2 are exact

The root of `n` is `r` or more where `4 * n` comes up to the level of `r` (`IsRoot.lt_iff`).  From the
half and the parity of an estimate comes a quarter of its level (`level_eq_quarter`), so that each of
the two comparisons with it decides on which side of the root the estimate is (`tooHigh_iff`,
`tooLow_iff`), the words being wide enough for every estimate up to the greatest root.  The estimate
in whole numbers settles one bit after the other; what is known of the bits settled so far is the
invariant `Settled`.
-/

namespace ProofOfWork.Cryptonight.IntegerStep

/-! ### The root of a number -/

/-- With `2 ^ 33` it is the greatest number whose square is at most `4 * (2 ^ 64 + n)`. -/
structure IsRoot (n r : Nat) : Prop where
  le : (r + 2 ^ 33) ^ 2 ≤ 4 * (2 ^ 64 + n)
  lt : 4 * (2 ^ 64 + n) < (r + 1 + 2 ^ 33) ^ 2

/-- Twice the square root of `2 ^ 64 + n`, rounded down, less `2 ^ 33`. -/
noncomputable def exactRoot (n : Nat) : Nat := ⌊2 * √((2 ^ 64 + n : Nat) : ℝ)⌋₊ - 2 ^ 33

/-- The root of `n` is `r` or more where `4 * n` comes up to the level of `r`. -/
def level (r : Nat) : Nat := r * r + 2 ^ 34 * r

section Root

variable {n r e : Nat}

theorem level_strictMono : StrictMono level := by
  intro a b hab
  have hsq : a * a < b * b := Nat.mul_self_lt_mul_self hab
  unfold level
  omega

theorem isRoot_iff : IsRoot n r ↔ level r ≤ 4 * n ∧ 4 * n < level (r + 1) := by
  have hsq (x : Nat) : (x + 2 ^ 33) ^ 2 = level x + 4 * 2 ^ 64 := by
    unfold level
    ring
  constructor
  · rintro ⟨hle, hlt⟩
    rw [hsq] at hle hlt
    omega
  · rintro ⟨hle, hlt⟩
    refine ⟨?_, ?_⟩ <;> rw [hsq] <;> omega

theorem IsRoot.lt_iff (h : IsRoot n r) : r < e ↔ 4 * n < level e := by
  obtain ⟨hle, hlt⟩ := isRoot_iff.mp h
  constructor
  · intro he
    have hnext : level (r + 1) ≤ level e := level_strictMono.monotone he
    omega
  · intro he
    exact level_strictMono.lt_iff_lt.mp (Nat.lt_of_le_of_lt hle he)

theorem IsRoot.unique {r' : Nat} (h : IsRoot n r) (h' : IsRoot n r') : r = r' := by
  have hlt : ¬ r < r' := fun hlt => Nat.not_lt_of_le (isRoot_iff.mp h').1 (h.lt_iff.mp hlt)
  have hgt : ¬ r' < r := fun hgt => Nat.not_lt_of_le (isRoot_iff.mp h).1 (h'.lt_iff.mp hgt)
  omega

theorem floor_two_mul_sqrt (x : Nat) : ⌊2 * √(x : ℝ)⌋₊ = Nat.sqrt (4 * x) := by
  rw [← Real.nat_floor_real_sqrt_eq_nat_sqrt, Nat.cast_mul, Real.sqrt_mul (Nat.cast_nonneg 4),
    show ((4 : Nat) : ℝ) = 2 ^ 2 by norm_num, Real.sqrt_sq zero_le_two]

theorem isRoot_exactRoot (n : Nat) : IsRoot n (exactRoot n) := by
  have hleast : 2 ^ 33 ≤ Nat.sqrt (4 * (2 ^ 64 + n)) := by
    rw [Nat.le_sqrt]
    omega
  have hroot : exactRoot n = Nat.sqrt (4 * (2 ^ 64 + n)) - 2 ^ 33 :=
    congrArg (· - 2 ^ 33) (floor_two_mul_sqrt _)
  have hsum : exactRoot n + 2 ^ 33 = Nat.sqrt (4 * (2 ^ 64 + n)) := by omega
  refine ⟨?_, ?_⟩
  · rw [hsum]
    exact Nat.sqrt_le' _
  · rw [Nat.add_right_comm, hsum]
    exact Nat.lt_succ_sqrt' _

theorem isRoot_iff_eq : IsRoot n r ↔ r = exactRoot n :=
  ⟨fun h => h.unique (isRoot_exactRoot n), fun h => h ▸ isRoot_exactRoot n⟩

/-- A quarter of the level of `e`, rounded down. -/
def quarter (e : Nat) : Nat := e / 2 * (e / 2 + e % 2) + e * 2 ^ 32

theorem level_eq_quarter (e : Nat) : level e = 4 * quarter e + e % 2 := by
  obtain ⟨s, rfl | rfl⟩ := Nat.even_or_odd' e
  · rw [quarter, Nat.mul_div_cancel_left s (by decide), Nat.mul_mod_right, level]
    ring
  · rw [quarter, show (2 * s + 1) / 2 = s by omega, show (2 * s + 1) % 2 = 1 by omega, level]
    ring

theorem level_succ (e : Nat) : level (e + 1) = level e + 2 * e + 1 + 2 ^ 34 := by
  unfold level
  ring

/-- The greatest root of a word. -/
abbrev maxRoot : Nat := 3558067407

theorem level_le_of_le_maxRoot (h : e ≤ maxRoot) : level e + 2 ^ 34 < 2 ^ 66 := by
  have hle : level e ≤ level maxRoot := level_strictMono.monotone h
  have hmax : level maxRoot + 2 ^ 34 < 2 ^ 66 := by decide
  omega

theorem IsRoot.le_maxRoot (h : IsRoot n r) (hn : n < 2 ^ 64) : r ≤ maxRoot := by
  have hmax : 4 * 2 ^ 64 ≤ level (maxRoot + 1) := by decide
  have hlt : r < maxRoot + 1 := h.lt_iff.mpr (by omega)
  exact Nat.le_of_lt_succ hlt

end Root

/-! ### Operations that do not wrap around -/

section Word

def sum? (x y : UInt64) : Option UInt64 :=
  if x.toNat + y.toNat < UInt64.size then some (x + y) else none

def difference? (x y : UInt64) : Option UInt64 := if y ≤ x then some (x - y) else none

def product? (x y : UInt64) : Option UInt64 :=
  if x.toNat * y.toNat < UInt64.size then some (x * y) else none

/-- A word moved up by half its width. -/
def raised? (x : UInt64) : Option UInt64 :=
  if x.toNat * 2 ^ 32 < UInt64.size then some (x <<< 32) else none

variable {x y : UInt64}

theorem sum?_eq (h : x.toNat + y.toNat < UInt64.size) :
    sum? x y = some (x + y) ∧ (x + y).toNat = x.toNat + y.toNat := by
  refine ⟨if_pos h, ?_⟩
  rw [UInt64.toNat_add]
  exact Nat.mod_eq_of_lt h

theorem difference?_eq (h : y.toNat ≤ x.toNat) :
    difference? x y = some (x - y) ∧ (x - y).toNat = x.toNat - y.toNat :=
  ⟨if_pos h, UInt64.toNat_sub_of_le x y h⟩

theorem product?_eq (h : x.toNat * y.toNat < UInt64.size) :
    product? x y = some (x * y) ∧ (x * y).toNat = x.toNat * y.toNat := by
  refine ⟨if_pos h, ?_⟩
  rw [UInt64.toNat_mul]
  exact Nat.mod_eq_of_lt h

theorem toNat_raised (x : UInt64) : (x <<< 32).toNat = x.toNat * 2 ^ 32 % 2 ^ 64 := by
  rw [UInt64.toNat_shiftLeft]
  exact congrArg (· % 2 ^ 64) (Nat.shiftLeft_eq x.toNat 32)

theorem raised?_eq (h : x.toNat * 2 ^ 32 < UInt64.size) :
    raised? x = some (x <<< 32) ∧ (x <<< 32).toNat = x.toNat * 2 ^ 32 :=
  ⟨if_pos h, (toNat_raised x).trans (Nat.mod_eq_of_lt h)⟩

def half (x : UInt64) : UInt64 := x >>> 1

def parity (x : UInt64) : UInt64 := x &&& 1

theorem toNat_half (x : UInt64) : (half x).toNat = x.toNat / 2 := by
  rw [half, UInt64.toNat_shiftRight]
  exact Nat.shiftRight_eq_div_pow x.toNat 1

theorem toNat_parity (x : UInt64) : (parity x).toNat = x.toNat % 2 := by
  rw [parity, UInt64.toNat_and]
  exact Nat.and_one_is_mod x.toNat

end Word

/-! ### The corrections -/

/-- A quarter of the level of an estimate. -/
def squareOf (e : UInt64) : UInt64 := half e * (half e + parity e) + e <<< 32

/-- The first correction takes one off. -/
abbrev TooHigh (n e : UInt64) : Prop := n < squareOf e + parity e

/-- The second correction adds one. -/
abbrev TooLow (n e : UInt64) : Prop := squareOf e + 0x100000000 < n - half e

theorem correctRoot_eq (n e : UInt64) : correctRoot n e =
    if TooLow n e then (if TooHigh n e then e - 1 else e) + 1
    else if TooHigh n e then e - 1 else e := rfl

def squareOf? (e : UInt64) : Option UInt64 := do
  let product ← product? (half e) (← sum? (half e) (parity e))
  sum? product (← raised? e)

/-- The corrections, or nothing where an operation wraps around. -/
def correctRoot? (n e : UInt64) : Option UInt64 := do
  let square ← squareOf? e
  let high ← sum? square (parity e)
  let low ← sum? square 0x100000000
  let rest ← difference? n (half e)
  let r ← (if n < high then difference? e 1 else some e)
  if low < rest then sum? r 1 else some r

/-- What is known of an estimate: it is off by one at most, and not above the greatest root. -/
structure IsEstimate (n e : UInt64) : Prop where
  le_succ : e.toNat ≤ exactRoot n.toNat + 1
  root_le_succ : exactRoot n.toNat ≤ e.toNat + 1
  le_maxRoot : e.toNat ≤ maxRoot

section Correction

variable {n e : UInt64}

theorem quarter_add_lt (h : e.toNat ≤ maxRoot) : quarter e.toNat + 2 ^ 32 < UInt64.size := by
  have hlevel := level_le_of_le_maxRoot h
  rw [level_eq_quarter] at hlevel
  rw [UInt64.size]
  omega

theorem squareOf?_eq (h : e.toNat ≤ maxRoot) :
    squareOf? e = some (squareOf e) ∧ (squareOf e).toNat = quarter e.toNat := by
  have hfits := quarter_add_lt h
  have hsize := e.toNat_lt_size
  rw [quarter] at hfits
  obtain ⟨hsum?, hsum⟩ := sum?_eq (x := half e) (y := parity e) (by
    rw [toNat_half, toNat_parity]
    omega)
  obtain ⟨hproduct?, hproduct⟩ := product?_eq (x := half e) (y := half e + parity e) (by
    rw [hsum, toNat_half, toNat_parity]
    omega)
  obtain ⟨hraised?, hraised⟩ := raised?_eq (x := e) (by omega)
  rw [hsum, toNat_half, toNat_parity] at hproduct
  obtain ⟨hsquare?, hsquare⟩ := sum?_eq (x := half e * (half e + parity e)) (y := e <<< 32) (by
    rw [hproduct, hraised]
    omega)
  refine ⟨?_, ?_⟩
  · simp only [squareOf?, hsum?, hproduct?, hraised?, Option.bind_eq_bind, Option.bind_some]
    exact hsquare?
  · rw [squareOf, hsquare, hproduct, hraised, quarter]

/-- Half of an estimate can be taken from the number. -/
theorem IsEstimate.half_le (h : IsEstimate n e) : e.toNat / 2 ≤ n.toNat := by
  have hle := h.le_succ
  have hroot := (isRoot_iff.mp (isRoot_exactRoot n.toNat)).1
  rw [level] at hroot
  omega

theorem sum?_squareOf_parity (h : e.toNat ≤ maxRoot) :
    sum? (squareOf e) (parity e) = some (squareOf e + parity e) ∧
      (squareOf e + parity e).toNat = quarter e.toNat + e.toNat % 2 := by
  obtain ⟨-, hsquare⟩ := squareOf?_eq h
  have hfits := quarter_add_lt h
  rw [← hsquare, ← toNat_parity]
  apply sum?_eq
  rw [hsquare, toNat_parity]
  omega

theorem sum?_squareOf_word (h : e.toNat ≤ maxRoot) :
    sum? (squareOf e) 0x100000000 = some (squareOf e + 0x100000000) ∧
      (squareOf e + 0x100000000).toNat = quarter e.toNat + 2 ^ 32 := by
  obtain ⟨-, hsquare⟩ := squareOf?_eq h
  have hfits := quarter_add_lt h
  rw [← hsquare] at hfits ⊢
  exact sum?_eq hfits

theorem difference?_half (h : IsEstimate n e) :
    difference? n (half e) = some (n - half e) ∧ (n - half e).toNat = n.toNat - e.toNat / 2 := by
  rw [← toNat_half]
  apply difference?_eq
  rw [toNat_half]
  exact h.half_le

theorem tooHigh_iff (h : IsEstimate n e) : TooHigh n e ↔ exactRoot n.toNat < e.toNat := by
  obtain ⟨-, hhigh⟩ := sum?_squareOf_parity h.le_maxRoot
  rw [(isRoot_exactRoot n.toNat).lt_iff, level_eq_quarter, TooHigh, UInt64.lt_iff_toNat_lt, hhigh]
  omega

theorem tooLow_iff (h : IsEstimate n e) : TooLow n e ↔ e.toNat < exactRoot n.toNat := by
  obtain ⟨-, hlow⟩ := sum?_squareOf_word h.le_maxRoot
  obtain ⟨-, hrest⟩ := difference?_half h
  have hhalf := h.half_le
  have hroot := (isRoot_exactRoot n.toNat).lt_iff (e := e.toNat + 1)
  rw [level_succ, level_eq_quarter] at hroot
  rw [TooLow, UInt64.lt_iff_toNat_lt, hlow, hrest]
  omega

theorem correctRoot?_eq_bind (h : IsEstimate n e) : correctRoot? n e =
    (if TooHigh n e then difference? e 1 else some e).bind
      fun r => if TooLow n e then sum? r 1 else some r := by
  obtain ⟨hsquare?, -⟩ := squareOf?_eq h.le_maxRoot
  obtain ⟨hhigh?, -⟩ := sum?_squareOf_parity h.le_maxRoot
  obtain ⟨hlow?, -⟩ := sum?_squareOf_word h.le_maxRoot
  obtain ⟨hrest?, -⟩ := difference?_half h
  rw [correctRoot?, hsquare?, Option.bind_eq_bind, Option.bind_some, hhigh?, Option.bind_some, hlow?,
    Option.bind_some, hrest?, Option.bind_some]

/-- From an estimate the corrections come to the root, and no word wraps around on the way. -/
theorem correctRoot?_eq (h : IsEstimate n e) :
    correctRoot? n e = some (correctRoot n e) ∧ (correctRoot n e).toNat = exactRoot n.toNat := by
  have hle := h.le_succ
  have hge := h.root_le_succ
  have hmax : e.toNat ≤ 3558067407 := h.le_maxRoot
  have hhigh := tooHigh_iff h
  have hlow := tooLow_iff h
  have hone : (1 : UInt64).toNat = 1 := rfl
  rw [correctRoot?_eq_bind h, correctRoot_eq]
  -- which side of the root the estimate is on
  obtain hlt | heq | hgt := Nat.lt_trichotomy e.toNat (exactRoot n.toNat)
  · have hnot : ¬ TooHigh n e := fun h => Nat.lt_asymm hlt (hhigh.mp h)
    obtain ⟨hsum?, hsum⟩ := sum?_eq (x := e) (y := 1) (by rw [hone, UInt64.size]; omega)
    rw [if_neg hnot, if_neg hnot, Option.bind_some, if_pos (hlow.mpr hlt), if_pos (hlow.mpr hlt)]
    refine ⟨hsum?, ?_⟩
    rw [hsum, hone]
    omega
  · have hnot : ¬ TooHigh n e := fun h => Nat.ne_of_gt (hhigh.mp h) heq
    have hnot' : ¬ TooLow n e := fun h => Nat.ne_of_lt (hlow.mp h) heq
    rw [if_neg hnot, if_neg hnot, Option.bind_some, if_neg hnot', if_neg hnot']
    exact ⟨rfl, heq⟩
  · have hnot : ¬ TooLow n e := fun h => Nat.lt_asymm hgt (hlow.mp h)
    obtain ⟨hdifference?, hdifference⟩ := difference?_eq (x := e) (y := 1) (by rw [hone]; omega)
    rw [if_pos (hhigh.mpr hgt), if_pos (hhigh.mpr hgt), hdifference?, Option.bind_some, if_neg hnot,
      if_neg hnot]
    refine ⟨rfl, ?_⟩
    rw [hdifference, hone]
    omega

end Correction

/-! ### The estimate in whole numbers -/

/-- What is known once the bits from `t` on are settled to `s`. -/
structure Settled (n t : Nat) (s left : UInt64) : Prop where
  eq : 4 * n = level (2 * s.toNat) + 4 * left.toNat
  lt : 4 * n < level (2 * (s.toNat + 2 ^ t))
  fits : s.toNat + 2 ^ t ≤ 2 ^ 31

section Bits

variable {n t : Nat} {s left : UInt64}

theorem Settled.lt_31 (h : Settled n (t + 1) s left) : t < 31 := by
  have hpow : 2 ^ (t + 1) ≤ 2 ^ 31 := Nat.le_trans (Nat.le_add_left _ _) h.fits
  exact (Nat.pow_le_pow_iff_right (by decide)).mp hpow

theorem toNat_shift_of_lt (x : UInt64) (ht : t < 31) :
    (x <<< t.toUInt64).toNat = x.toNat * 2 ^ t % 2 ^ 64 := by
  have hamount : t.toUInt64.toNat % 64 = t := by
    have hword : t.toUInt64.toNat = t % 2 ^ 64 := UInt64.toNat_ofNat'
    omega
  rw [UInt64.toNat_shiftLeft, hamount, Nat.shiftLeft_eq]

theorem toNat_bit (ht : t < 31) : ((1 : UInt64) <<< t.toUInt64).toNat = 2 ^ t := by
  have hpow : 2 ^ t ≤ 2 ^ 30 := Nat.pow_le_pow_right (by decide) (Nat.le_of_lt_succ ht)
  rw [toNat_shift_of_lt 1 ht, show (1 : UInt64).toNat = 1 from rfl, Nat.one_mul]
  exact Nat.mod_eq_of_lt (by omega)

theorem Settled.toNat_cost (h : Settled n (t + 1) s left) :
    ((s <<< 1 + 1 <<< t.toUInt64 + 0x200000000) <<< t.toUInt64).toNat
      = (2 * s.toNat + 2 ^ t + 2 ^ 33) * 2 ^ t := by
  have ht := h.lt_31
  have hfits := h.fits
  have hpow : 2 ^ t ≤ 2 ^ 30 := Nat.pow_le_pow_right (by decide) (Nat.le_of_lt_succ ht)
  rw [Nat.pow_succ] at hfits
  have hdouble : (s <<< 1).toNat = 2 * s.toNat := by
    rw [UInt64.toNat_shiftLeft, show (1 : UInt64).toNat % 64 = 1 from rfl, Nat.shiftLeft_eq]
    omega
  have hsum : (s <<< 1 + 1 <<< t.toUInt64 + 0x200000000).toNat
      = 2 * s.toNat + 2 ^ t + 2 ^ 33 := by
    rw [UInt64.toNat_add, UInt64.toNat_add, hdouble, toNat_bit ht,
      show (0x200000000 : UInt64).toNat = 2 ^ 33 from rfl]
    omega
  have hbound : (2 * s.toNat + 2 ^ t + 2 ^ 33) * 2 ^ t ≤ (2 ^ 32 + 2 ^ 33) * 2 ^ 30 :=
    Nat.mul_le_mul (by omega) hpow
  rw [toNat_shift_of_lt _ ht, hsum]
  exact Nat.mod_eq_of_lt (by omega)

/-- Every bit is settled by whether what is left pays for it. -/
theorem settled_rootBits (h : Settled n t s left) :
    ∃ left', Settled n 0 (rootBits t s left) left' := by
  induction t generalizing s left with
  | zero => exact ⟨left, h⟩
  | succ t ih =>
    have ht := h.lt_31
    have hcost := h.toNat_cost
    have heq := h.eq
    have hlt := h.lt
    have hfits := h.fits
    have hpos := Nat.two_pow_pos t
    rw [Nat.pow_succ, Nat.mul_two, ← Nat.add_assoc] at hlt hfits
    have hpaid : level (2 * (s.toNat + 2 ^ t))
        = level (2 * s.toNat) + 4 * ((2 * s.toNat + 2 ^ t + 2 ^ 33) * 2 ^ t) := by
      unfold level
      ring
    rw [← hcost] at hpaid
    rw [rootBits]
    split
    next hle =>
      rw [UInt64.le_iff_toNat_le] at hle
      have hrest := UInt64.toNat_sub_of_le _ _ (UInt64.le_iff_toNat_le.mpr hle)
      have hsum : (s + 1 <<< t.toUInt64).toNat = s.toNat + 2 ^ t := by
        rw [UInt64.toNat_add, toNat_bit ht]
        omega
      refine ih ⟨?_, ?_, ?_⟩ <;> rw [hsum]
      · omega
      · exact hlt
      · exact hfits
    next hgt =>
      rw [UInt64.le_iff_toNat_le] at hgt
      exact ih ⟨heq, by omega, by omega⟩

end Bits

theorem isEstimate_rootEstimate (n : UInt64) : IsEstimate n (rootEstimate n) := by
  have hn := n.toNat_lt
  have hmax : 4 * 2 ^ 64 ≤ level (2 * 2 ^ 31) := by decide
  have hstart : Settled n.toNat 31 0 n := by
    refine ⟨?_, ?_, ?_⟩ <;> rw [show (0 : UInt64).toNat = 0 from rfl]
    · rw [Nat.mul_zero, level, Nat.mul_zero]
      omega
    · rw [Nat.zero_add]
      omega
    · omega
  obtain ⟨left, heq, hlt, hfits⟩ := settled_rootBits hstart
  have hdouble : (rootEstimate n).toNat = 2 * (rootBits 31 0 n).toNat := by
    rw [rootEstimate, UInt64.toNat_shiftLeft, show (1 : UInt64).toNat % 64 = 1 from rfl,
      Nat.shiftLeft_eq]
    omega
  have hroot := isRoot_exactRoot n.toNat
  -- the estimate is the root or, where the root is odd, one below
  have hle : ¬ exactRoot n.toNat < (rootEstimate n).toNat := by
    rw [hroot.lt_iff, hdouble]
    omega
  have hge : exactRoot n.toNat < (rootEstimate n).toNat + 2 := by
    rw [hroot.lt_iff, hdouble]
    exact hlt
  have hmaxRoot := hroot.le_maxRoot hn
  exact ⟨by omega, by omega, by omega⟩

/-! ### The step -/

/-- The step with the root from a given estimate. -/
def stepWith (estimate : UInt64 → UInt64) (m : IntegerStep) (c2 c1 : Line) : Line × IntegerStep :=
  let d := divisor c1 m.root
  let division := (c1.hi / d).toUInt32.toUInt64 + (c1.hi % d) <<< 32
  let n := c1.lo + division
  (⟨c2.lo ^^^ m.division ^^^ m.root <<< 32, c2.hi⟩, ⟨division, correctRoot n (estimate n)⟩)

theorem step_eq_stepWith (m : IntegerStep) (c2 c1 : Line) :
    m.step c2 c1 = stepWith rootEstimate m c2 c1 := rfl

/-- The number that a step divides by. -/
def divisorNumber (c : Line) (root : UInt64) : Nat :=
  (c.lo.toNat + 2 * root.toNat) % 2 ^ 32 ||| 0x80000001

section Division

variable (c : Line) (root : UInt64)

theorem toNat_divisor : (divisor c root).toNat = divisorNumber c root := by
  have hdouble : (root <<< 1).toNat = 2 * root.toNat % 2 ^ 64 := by
    rw [UInt64.toNat_shiftLeft, show (1 : UInt64).toNat % 64 = 1 from rfl, Nat.shiftLeft_eq]
    omega
  have hsum : (c.lo + (root <<< 1).toUInt32.toUInt64).toUInt32.toNat
      = (c.lo.toNat + 2 * root.toNat) % 2 ^ 32 := by
    rw [UInt64.toNat_toUInt32, UInt64.toNat_add, UInt32.toNat_toUInt64, UInt64.toNat_toUInt32,
      hdouble]
    omega
  rw [divisor, UInt32.toNat_toUInt64, UInt32.toNat_or, hsum]
  rfl

theorem divisorNumber_pos : 0 < divisorNumber c root :=
  Nat.lt_of_lt_of_le (by decide) (Nat.right_le_or (m := 0x80000001))

theorem divisorNumber_lt : divisorNumber c root < 2 ^ 32 := by
  rw [← toNat_divisor, divisor, UInt32.toNat_toUInt64]
  exact UInt32.toNat_lt _

/-- Quotient and remainder stand side by side. -/
theorem toNat_division (x : UInt64) :
    ((x / divisor c root).toUInt32.toUInt64 + (x % divisor c root) <<< 32).toNat
      = x.toNat / divisorNumber c root % 2 ^ 32 + x.toNat % divisorNumber c root * 2 ^ 32 := by
  have hremainder : x.toNat % divisorNumber c root < 2 ^ 32 :=
    Nat.lt_trans (Nat.mod_lt _ (divisorNumber_pos c root)) (divisorNumber_lt c root)
  rw [UInt64.toNat_add, UInt32.toNat_toUInt64, UInt64.toNat_toUInt32, UInt64.toNat_div,
    toNat_raised, UInt64.toNat_mod, toNat_divisor]
  omega

end Division

/-- A step is exact.  It mixes the last results into the lower half of `c2`; the new quotient and
remainder are those of the upper half of `c1`, side by side in one word; and the new root is twice the
square root of `2 ^ 64 + n`, rounded down, less `2 ^ 33`, from every estimate that is off by one at
most and not above the greatest root.  At most one correction is made of an estimate, and none of its
words wraps around. -/
theorem integer_step_exact :
    (∀ n r : Nat, IsRoot n r ↔ r = ⌊2 * √((2 ^ 64 + n : Nat) : ℝ)⌋₊ - 2 ^ 33) ∧
    (∀ n e : UInt64, IsEstimate n e →
      correctRoot? n e = some (correctRoot n e) ∧ ¬ (TooHigh n e ∧ TooLow n e) ∧
      IsRoot n.toNat (correctRoot n e).toNat) ∧
    ∀ (estimate : UInt64 → UInt64) (m : IntegerStep) (c2 c1 : Line),
      let next := stepWith estimate m c2 c1
      let d := (c1.lo.toNat + 2 * m.root.toNat) % 2 ^ 32 ||| 0x80000001
      let n := c1.lo + next.2.division
      next.1 = ⟨c2.lo ^^^ m.division ^^^ m.root <<< 32, c2.hi⟩ ∧
      next.2.division.toNat % 2 ^ 32 = c1.hi.toNat / d % 2 ^ 32 ∧
      next.2.division.toNat / 2 ^ 32 = c1.hi.toNat % d ∧
      (IsEstimate n (estimate n) →
        IsRoot n.toNat next.2.root.toNat ∧ next = m.step c2 c1) := by
  refine ⟨fun n r => isRoot_iff_eq, fun n e h => ?_, fun estimate m c2 c1 => ?_⟩
  · obtain ⟨hchecked, hroot⟩ := correctRoot?_eq h
    refine ⟨hchecked, fun ⟨hhigh, hlow⟩ => ?_, isRoot_iff_eq.mpr hroot⟩
    exact Nat.lt_asymm ((tooHigh_iff h).mp hhigh) ((tooLow_iff h).mp hlow)
  · intro next d n
    have hdivision : next.2.division.toNat = c1.hi.toNat / d % 2 ^ 32 + c1.hi.toNat % d * 2 ^ 32 :=
      toNat_division c1 m.root c1.hi
    have hresult : next = (⟨c2.lo ^^^ m.division ^^^ m.root <<< 32, c2.hi⟩,
        ⟨next.2.division, correctRoot n (estimate n)⟩) := rfl
    refine ⟨rfl, by omega, by omega, fun h => ?_⟩
    obtain ⟨-, hroot⟩ := correctRoot?_eq h
    obtain ⟨-, hroot'⟩ := correctRoot?_eq (isEstimate_rootEstimate n)
    have hsame : correctRoot n (estimate n) = correctRoot n (rootEstimate n) :=
      UInt64.toNat_inj.mp (hroot.trans hroot'.symm)
    refine ⟨?_, ?_⟩
    · rw [isRoot_iff_eq, ← hroot, hresult]
    · rw [step_eq_stepWith, hresult, hsame]
      rfl

/-- In double precision `2 ^ 64 + n` is rounded up to the square of `2 ^ 32 + 64`, one above it, and the
estimate with it. -/
theorem integer_step_exact_rounded_up :
    let estimate : UInt64 → UInt64 := fun _ => 128
    let m : IntegerStep := ⟨7, 1⟩
    let c1 : Line := ⟨528280981500, 6442463234⟩
    let c2 : Line := ⟨0xff, 0xfe⟩
    let n := c1.lo + (stepWith estimate m c2 c1).2.division
    n = 549755817983 ∧ IsEstimate n (estimate n) ∧ TooHigh n (estimate n) ∧
      correctRoot? n (estimate n) = some 127 ∧ IsRoot n.toNat 127 ∧
      m.step c2 c1 = (⟨0x1000000f8, 0xfe⟩, ⟨21474836483, 127⟩) := by
  intro estimate m c1 c2 n
  obtain ⟨hexact, hcorrect, hstep⟩ := integer_step_exact
  have hn : n = 549755817983 := by decide
  have hroot : IsRoot n.toNat 127 := by
    rw [hn]
    exact ⟨by decide, by decide⟩
  have hvalue : exactRoot n.toNat = 127 := ((hexact n.toNat 127).mp hroot).symm
  have hestimate : IsEstimate n (estimate n) := by
    refine ⟨?_, ?_, by decide⟩ <;> rw [hvalue] <;> decide
  obtain ⟨hchecked, -, -⟩ := hcorrect n (estimate n) hestimate
  obtain ⟨-, -, -, hsame⟩ := hstep estimate m c2 c1
  refine ⟨hn, hestimate, by decide, ?_, hroot, ?_⟩
  · rw [hchecked]
    decide
  · rw [← (hsame hestimate).2]
    decide

end ProofOfWork.Cryptonight.IntegerStep

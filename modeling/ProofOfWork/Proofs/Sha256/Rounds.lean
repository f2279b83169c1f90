import ProofOfWork.Proofs.Lanes.Lanewise
import ProofOfWork.Proofs.Pushed
import ProofOfWork.Proofs.Sha256.Standard

/-!
# ProofOfWork.Proofs.Sha256.Rounds — a lane of the compression is the standard's

Lane by lane, the functions of the rounds are the standard's in other forms: rotations to the left,
the Boolean functions with fewer operations, the sums in another order.  The ring of sixteen words
keeps the last sixteen words of the schedule, word `k` in place `k % 16` (`Holds`): a round finds
all four words that its own is made of, and puts it where the oldest one was.  So after any number
of rounds the lane holds the standard's working variables (`lane_ringRounds`).
-/

namespace ProofOfWork.Sha256

open Lanes

/-! ### Functions on one word -/

@[simp] theorem bit32_rotateRight (x : UInt32) (n : Fin 32) (i : Nat) :
    bit32 (Standard.rotateRight n x) i = if i < 32 - n.val then bit32 x (n.val + i)
      else decide (i < 32) && bit32 x (i - (32 - n.val)) := by
  simp only [bit32, Standard.rotateRight]
  rw [BitVec.getLsbD_rotateRight, Nat.mod_eq_of_lt n.isLt, Bool.cond_decide]

/-- A rotation to the left is one to the right by what is missing to the whole word. -/
theorem rotateLeft_eq_rotateRight (x : UInt32) {m n : Fin 32} (h : m.val + n.val = 32) :
    rotateLeft x m = Standard.rotateRight n x := by
  apply eq_of_bit32
  intro i hi
  rw [bit32_rotateLeft, bit32_rotateRight, show 32 - n.val = m.val by omega,
    show 32 - m.val = n.val by omega]

theorem ch_eq (x y z : UInt32) : z ^^^ (x &&& (y ^^^ z)) = Standard.ch x y z := by
  apply eq_of_bit32
  intro i hi
  simp only [Standard.ch, bit32_xor, bit32_and, bit32_not, hi]
  cases bit32 x i <;> cases bit32 y i <;> cases bit32 z i <;> rfl

theorem maj_eq (x y z : UInt32) : (x &&& y) ||| (z &&& (x ||| y)) = Standard.maj x y z := by
  apply eq_of_bit32
  intro i hi
  simp only [Standard.maj, bit32_xor, bit32_and, bit32_or]
  cases bit32 x i <;> cases bit32 y i <;> cases bit32 z i <;> rfl

/-! ### Constants -/

theorem initial_eq : initial = Standard.initialValue := by decide +kernel

theorem roundConstants_eq : roundConstants = Standard.constants := by decide +kernel

/-! ### Functions on a lane -/

section Lane

variable {u : LaneUnit} (hu : u.Lanewise) (i : Fin u.way)
include hu

theorem lane_bigSigma0 (x : u.Group) :
    u.lane i (bigSigma0 u x) = Standard.bigSigma0 (u.lane i x) := by
  simp only [bigSigma0, hu.xor, hu.rol, Standard.bigSigma0]
  rw [rotateLeft_eq_rotateRight (m := 30) (n := 2) _ rfl,
    rotateLeft_eq_rotateRight (m := 19) (n := 13) _ rfl,
    rotateLeft_eq_rotateRight (m := 10) (n := 22) _ rfl]

theorem lane_bigSigma1 (x : u.Group) :
    u.lane i (bigSigma1 u x) = Standard.bigSigma1 (u.lane i x) := by
  simp only [bigSigma1, hu.xor, hu.rol, Standard.bigSigma1]
  rw [rotateLeft_eq_rotateRight (m := 26) (n := 6) _ rfl,
    rotateLeft_eq_rotateRight (m := 21) (n := 11) _ rfl,
    rotateLeft_eq_rotateRight (m := 7) (n := 25) _ rfl]

theorem lane_smallSigma0 (x : u.Group) :
    u.lane i (smallSigma0 u x) = Standard.smallSigma0 (u.lane i x) := by
  simp only [smallSigma0, hu.xor, hu.rol, hu.shr, Standard.smallSigma0]
  rw [rotateLeft_eq_rotateRight (m := 25) (n := 7) _ rfl,
    rotateLeft_eq_rotateRight (m := 14) (n := 18) _ rfl]
  rfl

theorem lane_smallSigma1 (x : u.Group) :
    u.lane i (smallSigma1 u x) = Standard.smallSigma1 (u.lane i x) := by
  simp only [smallSigma1, hu.xor, hu.rol, hu.shr, Standard.smallSigma1]
  rw [rotateLeft_eq_rotateRight (m := 15) (n := 17) _ rfl,
    rotateLeft_eq_rotateRight (m := 13) (n := 19) _ rfl]
  rfl

theorem lane_choose (x y z : u.Group) :
    u.lane i (choose u x y z) = Standard.ch (u.lane i x) (u.lane i y) (u.lane i z) := by
  rw [choose, hu.xor, hu.and, hu.xor, ch_eq]

theorem lane_majority (x y z : u.Group) :
    u.lane i (majority u x y z) = Standard.maj (u.lane i x) (u.lane i y) (u.lane i z) := by
  rw [majority, hu.or, hu.and, hu.and, hu.or, maj_eq]

theorem lane_round (s : State u) (k : UInt32) (w : u.Group) :
    (round u s k w).map (u.lane i) = Standard.round (s.map (u.lane i)) k (u.lane i w) := by
  match s with
  | ⟨⟨[a, b, c, d, e, f, g, h]⟩, _⟩ =>
    let t1 := u.add4 h (bigSigma1 u e) (choose u e f g) (u.add (u.broadcast k) w)
    let t2 := u.add (bigSigma0 u a) (majority u a b c)
    have ht1 : u.lane i t1 = u.lane i h + Standard.bigSigma1 (u.lane i e)
        + Standard.ch (u.lane i e) (u.lane i f) (u.lane i g) + k + u.lane i w := by
      rw [hu.add4, lane_bigSigma1 hu, lane_choose hu, hu.add, hu.broadcast, UInt32.add_assoc _ k]
    have ht2 : u.lane i t2 = Standard.bigSigma0 (u.lane i a)
        + Standard.maj (u.lane i a) (u.lane i b) (u.lane i c) := by
      rw [hu.add, lane_bigSigma0 hu, lane_majority hu]
    change (#v[u.add t1 t2, a, b, c, u.add d t1, e, f, g] : State u).map (u.lane i) = _
    simp only [Vector.map_mk, List.map_toArray, List.map_cons, List.map_nil, hu.add _ _ i, ht1, ht2]
    rfl

end Lane

/-! ### The schedule -/

theorem getElem_schedule_block (m : Vector UInt32 16) {k : Nat} (hk : k < 16) :
    (Standard.schedule m)[k] = m[k] :=
  getElem_pushed_of_le (f := Standard.scheduleWords m) (fun _ => rfl) (Nat.zero_le 48) hk

theorem getElem_schedule_next (m : Vector UInt32 16) {n : Nat} (hn : n < 48) :
    (Standard.schedule m)[16 + n] = Standard.smallSigma1 (Standard.schedule m)[14 + n]
      + (Standard.schedule m)[9 + n] + Standard.smallSigma0 (Standard.schedule m)[1 + n]
      + (Standard.schedule m)[n] := by
  have hmade (k : Nat) (hk : k < 16 + n) :
      (Standard.schedule m)[k] = (Standard.scheduleWords m n)[k] :=
    getElem_pushed_of_le (f := Standard.scheduleWords m) (fun _ => rfl) (Nat.le_of_lt hn) hk
  rw [hmade (14 + n) (by omega), hmade (9 + n) (by omega), hmade (1 + n) (by omega),
    hmade n (by omega)]
  exact getElem_pushed (f := Standard.scheduleWords m) (fun _ => rfl) hn

/-! ### The ring -/

section Ring

variable {u : LaneUnit} (hu : u.Lanewise) (i : Fin u.way)

theorem place_lt (k : Nat) : k % 16 < 16 := Nat.mod_lt k (by decide)

/-- Before round `t` is made, lane `i` of the ring holds the last sixteen words of the schedule,
word `k` in place `k % 16`. -/
def Holds (m : Vector UInt32 16) (t : Nat) (w : Ring u) : Prop :=
  ∀ (k : Nat) (_ : k < 64), k < max t 16 → max t 16 ≤ k + 16 →
    u.lane i (w.get ⟨k % 16, place_lt k⟩) = (Standard.schedule m)[k]

theorem holds_start {m : Vector UInt32 16} {w : Ring u} (h : w.map (u.lane i) = m) :
    Holds i m 0 w := by
  intro k _ hk _
  have hk : k < 16 := by omega
  subst h
  rw [getElem_schedule_block _ hk, Vector.getElem_map]
  simp only [Nat.mod_eq_of_lt hk]
  rfl

include hu

/-- The word of round `t` takes the place of word `t - 16`, which no later round reads. -/
theorem holds_refresh {m : Vector UInt32 16} {t : Nat} (ht : t < 64) {w : Ring u}
    (h : Holds i m t w) : Holds i m (t + 1) (refresh u t w) := by
  by_cases h16 : t < 16
  · rw [refresh, if_pos h16]
    intro k hk hlt hle
    exact h k hk (by omega) (by omega)
  · obtain ⟨n, rfl⟩ := Nat.exists_eq_add_of_le (Nat.le_of_not_lt h16)
    rw [refresh, if_neg h16]
    intro k hk hlt hle
    change u.lane i (Vector.set _ _ _ _)[k % 16] = _
    rw [Vector.getElem_set]
    split
    next hplace =>
      obtain rfl : k = 16 + n := by omega
      have h2 := h (14 + n) (by omega) (by omega) (by omega)
      have h7 := h (9 + n) (by omega) (by omega) (by omega)
      have h15 := h (1 + n) (by omega) (by omega) (by omega)
      have h16 := h n (by omega) (by omega) (by omega)
      rw [hu.add4, lane_smallSigma1 hu, lane_smallSigma0 hu, getElem_schedule_next m (by omega),
        ← h2, ← h7, ← h15, ← h16]
      simp only [show 16 + n - 2 = 14 + n by omega, show 16 + n - 7 = 9 + n by omega,
        show 16 + n - 15 = 1 + n by omega, show (16 + n) % 16 = n % 16 by omega]
      rfl
    next hplace => exact h k hk (by omega) (by omega)

/-- In each lane the rounds are the standard's. -/
theorem lane_ringRounds {m : Vector UInt32 16} {w : Ring u} (h : w.map (u.lane i) = m)
    (s : State u) : ((Nat.fold 64 (ringRound u) (s, w)).1).map (u.lane i)
      = Standard.rounds m (s.map (u.lane i)) := by
  have run (n : Nat) (hn : n ≤ 64) :
      let p := Nat.fold n (fun t ht => ringRound u t (Nat.lt_of_lt_of_le ht hn)) (s, w)
      Holds i m n p.2 ∧ p.1.map (u.lane i) = Nat.fold n
        (fun t ht v => Standard.round v Standard.constants[t] (Standard.schedule m)[t])
        (s.map (u.lane i)) := by
    induction n with
    | zero => exact ⟨holds_start i h, rfl⟩
    | succ n ih =>
      obtain ⟨hring, hstate⟩ := ih (by omega)
      have hnext := holds_refresh hu i (by omega) hring
      refine ⟨?_, ?_⟩
      · rw [Nat.fold_succ]
        exact hnext
      · rw [Nat.fold_succ, Nat.fold_succ, ← hstate]
        rw [ringRound, lane_round hu, roundConstants_eq, ← hnext n (by omega) (by omega) (by omega)]
        rfl
  exact (run 64 (Nat.le_refl 64)).2

theorem lane_compress {m : Vector UInt32 16} {w : Ring u} (h : w.map (u.lane i) = m) (s : State u) :
    (compress u s w).map (u.lane i)
      = Vector.zipWith (· + ·) (s.map (u.lane i)) (Standard.rounds m (s.map (u.lane i))) := by
  rw [← lane_ringRounds hu i h, compress]
  apply Vector.ext
  intro j hj
  simp only [Vector.getElem_map, Vector.getElem_zipWith, hu.add]

end Ring

end ProofOfWork.Sha256

import Mathlib.Data.Nat.Bitwise
import Mathlib.Logic.Equiv.Defs
import ProofOfWork.Proofs.Line
import ProofOfWork.Proofs.Traversal
import ProofOfWork.Scratchpad

/-!
# ProofOfWork.Proofs.Scratchpad.Shuffle — the shuffle of a group of four lines

The places beside `j` are those with the same number of the group and another number in it, so a
shuffle stays in its group (`xor_div_four`).  What it leaves in each line of the pad is one formula
(`get_shuffleAdd`): from it come what is moved and what is not, the shuffle backwards and that
shuffles of different groups do not meet.  Run on memory, one access after the other, a shuffle has
read all three lines before it writes the first one, so that one which fails has changed nothing
(`run_shuffleInPlace`).
-/

namespace ProofOfWork.Scratchpad

/-! ### Groups of four -/

theorem xor_div_four (j : Nat) {d : Nat} (hd : d < 4) : (j ^^^ d) / 4 = j / 4 := by
  have hshift : (j ^^^ d) >>> 2 = j >>> 2 ^^^ d >>> 2 := Nat.shiftRight_xor_distrib
  have hzero : d >>> 2 = 0 := by
    rw [Nat.shiftRight_eq_div_pow]
    exact Nat.div_eq_of_lt hd
  rwa [hzero, Nat.xor_zero, Nat.shiftRight_eq_div_pow, Nat.shiftRight_eq_div_pow] at hshift

theorem xor_ne (j : Nat) {d e : Nat} (h : d ≠ e) : j ^^^ d ≠ j ^^^ e :=
  fun heq => h (Nat.xor_right_injective heq)

theorem mk_xor_ne {n j d e : Nat} (h : d ≠ e) (hd : j ^^^ d < n) (he : j ^^^ e < n) :
    (⟨j ^^^ d, hd⟩ : Fin n) ≠ ⟨j ^^^ e, he⟩ := fun heq => xor_ne j h (Fin.mk.inj heq)

/-- The three places beside `j` are in the pad. -/
def InPad (n j : Nat) : Prop := j ^^^ 1 < n ∧ j ^^^ 2 < n ∧ j ^^^ 3 < n

instance (n j : Nat) : Decidable (InPad n j) :=
  inferInstanceAs (Decidable (j ^^^ 1 < n ∧ j ^^^ 2 < n ∧ j ^^^ 3 < n))

/-- A pad of full groups has either all places of a group or none. -/
theorem inPad_iff {n : Nat} (hn : 4 ∣ n) (j : Nat) : InPad n j ↔ j < n := by
  have h1 := xor_div_four j (d := 1) (by decide)
  have h2 := xor_div_four j (d := 2) (by decide)
  have h3 := xor_div_four j (d := 3) (by decide)
  unfold InPad
  omega

variable {n : Nat}

theorem eq_of_get {v w : Scratchpad n} (h : ∀ k, v.get k = w.get k) : v = w :=
  Vector.ext fun k hk => h ⟨k, hk⟩

theorem get_set (v : Scratchpad n) (j k : Fin n) (x : Line) :
    (v.set j.val x j.isLt).get k = if j = k then x else v.get k := by
  change (v.set j.val x j.isLt)[k.val] = _
  rw [Vector.getElem_set]
  simp only [Fin.ext_iff]
  rfl

/-! ### Three lines -/

section Lines

variable (j1 j2 j3 : Fin n) (a b0 b1 : Line)

theorem get_shuffleAdd (pad : Scratchpad n) (k : Fin n) :
    (pad.shuffleAdd j1 j2 j3 a b0 b1).get k
      = if j2 = k then pad.get j1 + b0 else if j3 = k then pad.get j2 + a
        else if j1 = k then pad.get j3 + b1 else pad.get k := by
  simp only [shuffleAdd, get_set]

/-- The lines move back, each with what was added to it taken off. -/
def unshuffleAdd (pad : Scratchpad n) : Scratchpad n :=
  let x1 := pad.get j2 - b0
  let x2 := pad.get j3 - a
  let x3 := pad.get j1 - b1
  ((pad.set j1 x1 j1.isLt).set j3 x3 j3.isLt).set j2 x2 j2.isLt

theorem get_unshuffleAdd (pad : Scratchpad n) (k : Fin n) :
    (pad.unshuffleAdd j1 j2 j3 a b0 b1).get k
      = if j2 = k then pad.get j3 - a else if j3 = k then pad.get j1 - b1
        else if j1 = k then pad.get j2 - b0 else pad.get k := by
  simp only [unshuffleAdd, get_set]

/-- Pads are the same that agree in three lines and in all the others. -/
theorem eq_of_places {v w : Scratchpad n} (h1 : v.get j1 = w.get j1) (h2 : v.get j2 = w.get j2)
    (h3 : v.get j3 = w.get j3)
    (hrest : ∀ k, j1 ≠ k → j2 ≠ k → j3 ≠ k → v.get k = w.get k) : v = w := by
  refine eq_of_get fun k => ?_
  by_cases hk1 : j1 = k
  · rwa [← hk1]
  by_cases hk2 : j2 = k
  · rwa [← hk2]
  by_cases hk3 : j3 = k
  · rwa [← hk3]
  exact hrest k hk1 hk2 hk3

variable {j1 j2 j3}

/-- A shuffle of three different lines can be undone. -/
def shufflePerm (h12 : j1 ≠ j2) (h13 : j1 ≠ j3) (h23 : j2 ≠ j3) : Equiv.Perm (Scratchpad n) where
  toFun pad := pad.shuffleAdd j1 j2 j3 a b0 b1
  invFun pad := pad.unshuffleAdd j1 j2 j3 a b0 b1
  left_inv pad := by
    refine eq_of_places j1 j2 j3 ?_ ?_ ?_ fun k h1 h2 h3 => ?_
    · simp [get_unshuffleAdd, get_shuffleAdd, h12.symm, h13.symm]
    · simp [get_unshuffleAdd, get_shuffleAdd, h23]
    · simp [get_unshuffleAdd, get_shuffleAdd, h12.symm, h13.symm, h23]
    · simp [get_unshuffleAdd, get_shuffleAdd, h1, h2, h3]
  right_inv pad := by
    refine eq_of_places j1 j2 j3 ?_ ?_ ?_ fun k h1 h2 h3 => ?_
    · simp [get_unshuffleAdd, get_shuffleAdd, h12.symm, h13.symm, h23]
    · simp [get_unshuffleAdd, get_shuffleAdd, h12.symm, h13.symm]
    · simp [get_unshuffleAdd, get_shuffleAdd, h23]
    · simp [get_unshuffleAdd, get_shuffleAdd, h1, h2, h3]

end Lines

/-! ### The shuffle beside a line -/

section Group

variable {j : Nat} (h : InPad n j) (a b0 b1 : Line)

def shuffleBeside (pad : Scratchpad n) : Scratchpad n :=
  pad.shuffleAdd ⟨j ^^^ 1, h.1⟩ ⟨j ^^^ 2, h.2.1⟩ ⟨j ^^^ 3, h.2.2⟩ a b0 b1

theorem shuffleAdd?_eq_some (pad : Scratchpad n) :
    pad.shuffleAdd? j a b0 b1 = some (pad.shuffleBeside h a b0 b1) := dif_pos h

theorem shuffleAdd?_eq_none (h : ¬ InPad n j) (pad : Scratchpad n) :
    pad.shuffleAdd? j a b0 b1 = none := dif_neg h

theorem shuffleAdd?_eq_none_iff {pad : Scratchpad n} :
    pad.shuffleAdd? j a b0 b1 = none ↔ ¬ InPad n j := by
  refine ⟨fun hnone h => ?_, fun h => shuffleAdd?_eq_none a b0 b1 h pad⟩
  rw [shuffleAdd?_eq_some h] at hnone
  exact Option.some_ne_none _ hnone

/-- A line that is none of the three stays. -/
theorem get_shuffleBeside_of_ne (pad : Scratchpad n) {k : Fin n}
    (hk : ∀ d, d ≠ 0 → d < 4 → j ^^^ d ≠ k.val) :
    (pad.shuffleBeside h a b0 b1).get k = pad.get k := by
  have hne {d : Nat} (hd : d ≠ 0 ∧ d < 4) (hp : j ^^^ d < n) : (⟨j ^^^ d, hp⟩ : Fin n) ≠ k :=
    fun heq => hk d hd.1 hd.2 (congrArg Fin.val heq)
  rw [shuffleBeside, get_shuffleAdd, if_neg (hne (by decide) h.2.1),
    if_neg (hne (by decide) h.2.2), if_neg (hne (by decide) h.1)]

theorem get_shuffleBeside_outside (pad : Scratchpad n) {k : Fin n} (hk : k.val / 4 ≠ j / 4) :
    (pad.shuffleBeside h a b0 b1).get k = pad.get k := by
  refine get_shuffleBeside_of_ne h a b0 b1 pad fun d _ hd heq => hk ?_
  rw [← heq, xor_div_four j hd]

theorem get_shuffleBeside_self (pad : Scratchpad n) {k : Fin n} (hk : k.val = j) :
    (pad.shuffleBeside h a b0 b1).get k = pad.get k := by
  refine get_shuffleBeside_of_ne h a b0 b1 pad fun d hd _ heq => xor_ne j hd ?_
  rw [heq, hk, Nat.xor_zero]

/-- What a shuffle leaves in its group comes from the lines of the group alone. -/
theorem get_shuffleBeside_congr {pad pad' : Scratchpad n}
    (hsame : ∀ i : Fin n, i.val / 4 = j / 4 → pad.get i = pad'.get i) {k : Fin n}
    (hk : k.val / 4 = j / 4) :
    (pad.shuffleBeside h a b0 b1).get k = (pad'.shuffleBeside h a b0 b1).get k := by
  have hplace {d : Nat} (hd : d < 4) (hp : j ^^^ d < n) :
      pad.get ⟨j ^^^ d, hp⟩ = pad'.get ⟨j ^^^ d, hp⟩ := hsame _ (xor_div_four j hd)
  simp only [shuffleBeside, get_shuffleAdd, hsame k hk, hplace (show 1 < 4 by decide),
    hplace (show 2 < 4 by decide), hplace (show 3 < 4 by decide)]

end Group

/-- Shuffles of different groups can change places. -/
theorem shuffleBeside_comm {j k : Nat} (hj : InPad n j) (hk : InPad n k) (hjk : j / 4 ≠ k / 4)
    (a b0 b1 a' b0' b1' : Line) (pad : Scratchpad n) :
    (pad.shuffleBeside hj a b0 b1).shuffleBeside hk a' b0' b1'
      = (pad.shuffleBeside hk a' b0' b1').shuffleBeside hj a b0 b1 := by
  refine eq_of_get fun i => ?_
  by_cases hij : i.val / 4 = j / 4
  · have hik : i.val / 4 ≠ k / 4 := by omega
    rw [get_shuffleBeside_outside hk _ _ _ _ hik]
    refine get_shuffleBeside_congr hj a b0 b1 (fun l hl => ?_) hij
    rw [get_shuffleBeside_outside hk _ _ _ _ (by omega)]
  · rw [get_shuffleBeside_outside hj _ _ _ _ hij]
    by_cases hik : i.val / 4 = k / 4
    · refine get_shuffleBeside_congr hk a' b0' b1' (fun l hl => ?_) hik
      rw [get_shuffleBeside_outside hj _ _ _ _ (by omega)]
    · rw [get_shuffleBeside_outside hk _ _ _ _ hik, get_shuffleBeside_outside hk _ _ _ _ hik,
        get_shuffleBeside_outside hj _ _ _ _ hij]

/-- What a shuffle beside line `j` leaves: the three lines have moved, each plus a line half by half,
and nothing else has changed. -/
structure Shuffled {j : Nat} (h : InPad n j) (a b0 b1 : Line) (pad after : Scratchpad n) : Prop where
  first : after.get ⟨j ^^^ 1, h.1⟩
    = ⟨(pad.get ⟨j ^^^ 3, h.2.2⟩).lo + b1.lo, (pad.get ⟨j ^^^ 3, h.2.2⟩).hi + b1.hi⟩
  third : after.get ⟨j ^^^ 3, h.2.2⟩
    = ⟨(pad.get ⟨j ^^^ 2, h.2.1⟩).lo + a.lo, (pad.get ⟨j ^^^ 2, h.2.1⟩).hi + a.hi⟩
  second : after.get ⟨j ^^^ 2, h.2.1⟩
    = ⟨(pad.get ⟨j ^^^ 1, h.1⟩).lo + b0.lo, (pad.get ⟨j ^^^ 1, h.1⟩).hi + b0.hi⟩
  rest : ∀ k : Fin n, k.val = j ∨ k.val / 4 ≠ j / 4 → after.get k = pad.get k

theorem shuffled {j : Nat} (h : InPad n j) (a b0 b1 : Line) (pad : Scratchpad n) :
    Shuffled h a b0 b1 pad (pad.shuffleBeside h a b0 b1) := by
  refine ⟨?_, ?_, ?_, ?_⟩
  · rw [shuffleBeside, get_shuffleAdd, if_neg (mk_xor_ne (by decide) h.2.1 h.1),
      if_neg (mk_xor_ne (by decide) h.2.2 h.1), if_pos rfl]
    rfl
  · rw [shuffleBeside, get_shuffleAdd, if_neg (mk_xor_ne (by decide) h.2.1 h.2.2),
      if_pos rfl]
    rfl
  · rw [shuffleBeside, get_shuffleAdd, if_pos rfl]
    rfl
  · rintro k (hk | hk)
    · exact get_shuffleBeside_self h a b0 b1 pad hk
    · exact get_shuffleBeside_outside h a b0 b1 pad hk

theorem exists_shufflePerm {j : Nat} (h : InPad n j) (a b0 b1 : Line) :
    ∃ σ : Equiv.Perm (Scratchpad n), ∀ pad, pad.shuffleAdd? j a b0 b1 = some (σ pad) :=
  ⟨shufflePerm a b0 b1 (mk_xor_ne (by decide) h.1 h.2.1) (mk_xor_ne (by decide) h.1 h.2.2)
    (mk_xor_ne (by decide) h.2.1 h.2.2), shuffleAdd?_eq_some h a b0 b1⟩

/-! ### On memory -/

/-- Reads and writes of an array of lines, one after the other.  A run stops at the first place that
is outside, and what was written before stays written. -/
abbrev OnLines := EStateM Unit (Array Line)

def readLine (j : Nat) : OnLines Line := fun lines =>
  if h : j < lines.size then .ok lines[j] lines else .error () lines

def writeLine (j : Nat) (x : Line) : OnLines Unit := fun lines =>
  if h : j < lines.size then .ok () (lines.set j x h) else .error () lines

def shuffleInPlace (j : Nat) (a b0 b1 : Line) : OnLines Unit := do
  let x1 ← readLine (j ^^^ 1)
  let x2 ← readLine (j ^^^ 2)
  let x3 ← readLine (j ^^^ 3)
  writeLine (j ^^^ 1) (x3 + b1)
  writeLine (j ^^^ 3) (x2 + a)
  writeLine (j ^^^ 2) (x1 + b0)

section OnLines

variable {j : Nat}

theorem run_readLine (h : j < n) (pad : Scratchpad n) :
    (readLine j).run pad.toArray = .ok (pad.get ⟨j, h⟩) pad.toArray :=
  dif_pos (by rwa [pad.size_toArray])

theorem run_readLine_outside (h : ¬ j < n) (pad : Scratchpad n) :
    (readLine j).run pad.toArray = .error () pad.toArray :=
  dif_neg (by rwa [pad.size_toArray])

theorem run_writeLine (h : j < n) (x : Line) (pad : Scratchpad n) :
    (writeLine j x).run pad.toArray = .ok () (pad.set j x h).toArray :=
  dif_pos (by rwa [pad.size_toArray])

end OnLines

/-- How a run on a pad ends: with another pad of its length, or stopped and with nothing changed. -/
def ending (pad : Scratchpad n) : Option (Scratchpad n) → EStateM.Result Unit (Array Line) Unit
  | some after => .ok () after.toArray
  | none => .error () pad.toArray

theorem run_shuffleInPlace (j : Nat) (a b0 b1 : Line) (pad : Scratchpad n) :
    (shuffleInPlace j a b0 b1).run pad.toArray = pad.ending (pad.shuffleAdd? j a b0 b1) := by
  have hstop (h : ¬ InPad n j) :
      pad.ending (pad.shuffleAdd? j a b0 b1) = .error () pad.toArray := by
    rw [shuffleAdd?_eq_none a b0 b1 h]
    rfl
  unfold shuffleInPlace
  by_cases h1 : j ^^^ 1 < n
  · rw [run_bind_of_ok (run_readLine h1 pad)]
    by_cases h2 : j ^^^ 2 < n
    · rw [run_bind_of_ok (run_readLine h2 pad)]
      by_cases h3 : j ^^^ 3 < n
      · -- Nothing is written before this point, and no write is outside after it.
        rw [run_bind_of_ok (run_readLine h3 pad), run_bind_of_ok (run_writeLine h1 _ pad),
          run_bind_of_ok (run_writeLine h3 _ _), run_writeLine h2,
          shuffleAdd?_eq_some ⟨h1, h2, h3⟩]
        rfl
      · rw [run_bind_of_error (run_readLine_outside h3 pad), hstop fun h => h3 h.2.2]
    · rw [run_bind_of_error (run_readLine_outside h2 pad), hstop fun h => h2 h.2.1]
  · rw [run_bind_of_error (run_readLine_outside h1 pad), hstop fun h => h1 h.1]

/-! ### The whole shuffle -/

/-- A shuffle fails where a place beside `j` is outside the pad, and then has changed nothing of it.
Otherwise it moves the three lines and nothing else, and can be undone.  In a pad of full groups it
never fails beside a line of the pad.  Two shuffles of different groups come to the same in either
order. -/
theorem shuffle_exact (n j : Nat) (a b0 b1 : Line) :
    (∀ pad : Scratchpad n, (shuffleInPlace j a b0 b1).run pad.toArray
      = pad.ending (pad.shuffleAdd? j a b0 b1)) ∧
    (∀ pad : Scratchpad n, pad.shuffleAdd? j a b0 b1 = none
      ↔ n ≤ j ^^^ 1 ∨ n ≤ j ^^^ 2 ∨ n ≤ j ^^^ 3) ∧
    (∀ (h : InPad n j) (pad : Scratchpad n), ∃ after, pad.shuffleAdd? j a b0 b1 = some after ∧
      Shuffled h a b0 b1 pad after) ∧
    (Function.Bijective fun pad : Scratchpad n => (pad.shuffleAdd? j a b0 b1).getD pad) ∧
    (4 ∣ n → j < n → ∃ σ : Equiv.Perm (Scratchpad n), ∀ pad,
      pad.shuffleAdd? j a b0 b1 = some (σ pad)) ∧
    ∀ (k : Nat) (a' b0' b1' : Line) (pad : Scratchpad n), j / 4 ≠ k / 4 →
      (pad.shuffleAdd? j a b0 b1).bind (fun after => after.shuffleAdd? k a' b0' b1')
        = (pad.shuffleAdd? k a' b0' b1').bind (fun after => after.shuffleAdd? j a b0 b1) := by
  refine ⟨run_shuffleInPlace j a b0 b1, fun pad => ?_, fun h pad => ?_, ?_, fun hn hj => ?_, ?_⟩
  · rw [shuffleAdd?_eq_none_iff]
    unfold InPad
    omega
  · exact ⟨_, shuffleAdd?_eq_some h a b0 b1 pad, shuffled h a b0 b1 pad⟩
  · by_cases h : InPad n j
    · obtain ⟨σ, hσ⟩ := exists_shufflePerm h a b0 b1
      simp only [hσ, Option.getD_some]
      exact σ.bijective
    · simp only [shuffleAdd?_eq_none a b0 b1 h, Option.getD_none]
      exact Function.bijective_id
  · exact exists_shufflePerm ((inPad_iff hn j).mpr hj) a b0 b1
  · intro k a' b0' b1' pad hjk
    by_cases hj : InPad n j
    · by_cases hk : InPad n k
      · simp only [shuffleAdd?_eq_some hj, shuffleAdd?_eq_some hk, Option.bind_some,
          shuffleBeside_comm hj hk hjk]
      · simp only [shuffleAdd?_eq_none a' b0' b1' hk, shuffleAdd?_eq_some hj, Option.bind_some,
          Option.bind_none]
    · simp only [shuffleAdd?_eq_none a b0 b1 hj, Option.bind_none, Option.bind_fun_none]

/-- Eight lines: line 5 is beside lines 4, 7 and 6, and place 9 is beside none of them. -/
theorem shuffle_exact_eight :
    let pad : Scratchpad 8 := Vector.ofFn fun i => ⟨i.val.toUInt64, 100 + i.val.toUInt64⟩
    let a : Line := ⟨1, 1⟩
    let b0 : Line := ⟨10, 10⟩
    let b1 : Line := ⟨20, 20⟩
    (∃ after, pad.shuffleAdd? 5 a b0 b1 = some after ∧ after.get 4 = ⟨26, 126⟩ ∧
      after.get 6 = ⟨8, 108⟩ ∧ after.get 7 = ⟨14, 114⟩ ∧ after.get 5 = ⟨5, 105⟩ ∧
      after.get 3 = ⟨3, 103⟩) ∧
    (∃ σ : Equiv.Perm (Scratchpad 8), pad.shuffleAdd? 5 a b0 b1 = some (σ pad)) ∧
    (pad.shuffleAdd? 5 a b0 b1).bind (fun after => after.shuffleAdd? 2 b1 a b0)
      = (pad.shuffleAdd? 2 b1 a b0).bind (fun after => after.shuffleAdd? 5 a b0 b1) ∧
    (shuffleInPlace 9 a b0 b1).run pad.toArray = .error () pad.toArray := by
  intro pad a b0 b1
  obtain ⟨-, -, hsome, -, hperm, hcomm⟩ := shuffle_exact 8 5 a b0 b1
  obtain ⟨hrun, hnone, -⟩ := shuffle_exact 8 9 a b0 b1
  refine ⟨?_, ?_, hcomm 2 b1 a b0 pad (by decide), ?_⟩
  · obtain ⟨after, hafter, moved⟩ := hsome (by decide) pad
    exact ⟨after, hafter, moved.first.trans (by decide), moved.third.trans (by decide),
      moved.second.trans (by decide), (moved.rest 5 (by decide)).trans (by decide),
      (moved.rest 3 (by decide)).trans (by decide)⟩
  · obtain ⟨σ, hσ⟩ := hperm (by decide) (by decide)
    exact ⟨σ, hσ pad⟩
  · rw [hrun pad, (hnone pad).mpr (by decide)]
    rfl

end ProofOfWork.Scratchpad

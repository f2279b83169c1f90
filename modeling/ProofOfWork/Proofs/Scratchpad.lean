import ProofOfWork.Scratchpad

/-!
# ProofOfWork.Proofs.Scratchpad — a pad in eight columns

Lines eight places apart make a column, and no column meets another.  Filling puts into line `k` the
line of the text in its column after `k / 8 + 1` pseudo-rounds (`getElem_explode`); folding takes
the lines of a column into its line of the text one after the other (`get_foldLines`).
-/

namespace ProofOfWork.Scratchpad

variable {n : Nat} (keys : Aes.RoundKeys) (t : Vector Line 8)

/-! ### Filling -/

theorem column_lt (k : Nat) : k % 8 < 8 := Nat.mod_lt k (by decide)

/-- What filling puts into line `k`. -/
def filled (k : Nat) : Line :=
  Nat.repeat (Aes.pseudoRound keys) (k / 8 + 1) (t.get ⟨k % 8, column_lt k⟩)

theorem filled_first {k : Nat} (hk : k < 8) : filled keys t k = Aes.pseudoRound keys t[k] := by
  have h0 : k / 8 = 0 := by omega
  simp only [filled, h0, Nat.mod_eq_of_lt hk]
  rfl

theorem filled_next (k : Nat) : filled keys t (k + 8) = Aes.pseudoRound keys (filled keys t k) := by
  simp only [filled, show (k + 8) / 8 = k / 8 + 1 by omega, show (k + 8) % 8 = k % 8 by omega]
  rfl

/-- After `m` lines those are filled and the others are as they were. -/
theorem getElem_fillLines (pad : Scratchpad n) (m : Nat) (hm : m ≤ n) (k : Nat) (hk : k < n) :
    (Nat.fold m (fun k hk pad => fillLine keys t k (Nat.lt_of_lt_of_le hk hm) pad) pad)[k]
      = if k < m then filled keys t k else pad[k] := by
  induction m generalizing k with
  | zero => rfl
  | succ m ih =>
    rw [Nat.fold_succ, fillLine, Vector.getElem_set]
    by_cases hkm : m = k
    · subst hkm
      rw [if_pos rfl, if_pos (Nat.lt_succ_self m)]
      by_cases h8 : m < 8
      · rw [dif_pos h8, filled_first keys t h8]
      · obtain ⟨l, rfl⟩ := Nat.exists_eq_add_of_le' (Nat.le_of_not_lt h8)
        have hback := ih (by omega) l (by omega)
        rw [if_pos (by omega)] at hback
        rw [dif_neg h8, filled_next, ← hback]
        rfl
    · have hlt : k < m + 1 ↔ k < m := by omega
      rw [if_neg hkm, ih (by omega) k hk]
      simp only [hlt]

theorem getElem_explode (s : Keccak.State) (pad : Scratchpad n) (k : Nat) (hk : k < n) :
    (explode s pad)[k] = if k < 8 * (n / 8) then filled (fillKeys s) (text s) k else pad[k] :=
  getElem_fillLines (fillKeys s) (text s) pad (8 * (n / 8)) (by omega) k hk

/-! ### Folding -/

variable (pad : Scratchpad n)

/-- A line with the first `c` lines of column `i` folded into it, a pseudo-round after each. -/
def columnFold (i : Fin 8) (c : Nat) (hc : c ≤ n / 8) (x : Line) : Line :=
  Nat.fold c (fun j _ x => Aes.pseudoRound keys (x ^^^ pad[8 * j + i.val])) x

theorem columnFold_succ (i : Fin 8) (c : Nat) (hc : c + 1 ≤ n / 8) (x : Line) :
    columnFold keys pad i (c + 1) hc x = Aes.pseudoRound keys
      (columnFold keys pad i c (Nat.le_of_succ_le hc) x ^^^ pad[8 * c + i.val]) := by
  rw [columnFold, Nat.fold_succ]
  rfl

/-- After `m` lines each line of the text has taken in those of its column. -/
theorem get_foldLines (m : Nat) (hm : m ≤ 8 * (n / 8)) (i : Fin 8) :
    (Nat.fold m (fun k hk t => foldLine keys pad k (by omega) t) t).get i
      = columnFold keys pad i ((m + 7 - i.val) / 8) (by omega) (t.get i) := by
  have hi := i.isLt
  induction m with
  | zero =>
    simp only [show (0 + 7 - i.val) / 8 = 0 by omega]
    rfl
  | succ m ih =>
    rw [Nat.fold_succ, foldLine]
    change (Vector.set _ (m % 8) _ _)[i.val] = _
    rw [Vector.getElem_set]
    by_cases hcol : m % 8 = i.val
    · obtain ⟨q, rfl⟩ : ∃ q, m = 8 * q + i.val := ⟨m / 8, by omega⟩
      have hq := ih (by omega)
      simp only [show (8 * q + i.val + 7 - i.val) / 8 = q by omega] at hq
      simp only [hcol, show (8 * q + i.val + 1 + 7 - i.val) / 8 = q + 1 by omega]
      rw [if_pos trivial, columnFold_succ, ← hq]
      rfl
    · simp only [if_neg hcol, show (m + 1 + 7 - i.val) / 8 = (m + 7 - i.val) / 8 by omega]
      exact ih (by omega)

theorem line_lt {k : Nat} (hk : k < 8 * (n / 8)) : k < n := by omega

theorem get_foldLines_all (i : Fin 8) :
    (Nat.fold (8 * (n / 8)) (fun k hk t => foldLine keys pad k (line_lt hk) t) t).get i
      = columnFold keys pad i (n / 8) (Nat.le_refl _) (t.get i) := by
  have hi := i.isLt
  have h := get_foldLines keys t pad (8 * (n / 8)) (Nat.le_refl _) i
  simp only [show (8 * (n / 8) + 7 - i.val) / 8 = n / 8 by omega] at h
  exact h

end ProofOfWork.Scratchpad

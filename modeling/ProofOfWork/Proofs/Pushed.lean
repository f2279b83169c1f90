/-!
# ProofOfWork.Proofs.Pushed — vectors that grow one element at a time

A schedule of words starts with some words and is made by pushing one after the other.  A word stays
where it was pushed, so that each can be read in the finished schedule.
-/

namespace ProofOfWork

variable {α : Type} {k : Nat} {f : (n : Nat) → Vector α (k + n)} {next : Nat → α}
  (h : ∀ n, f (n + 1) = (f n).push (next n))
include h

theorem getElem_pushed_of_le {n last i : Nat} (hn : n ≤ last) (hi : i < k + n) :
    (f last)[i] = (f n)[i] := by
  induction last with
  | zero =>
    obtain rfl : n = 0 := by omega
    rfl
  | succ last ih =>
    by_cases hlast : n = last + 1
    · subst hlast
      rfl
    · simp only [h last]
      rw [Vector.getElem_push_lt (by omega)]
      exact ih (by omega)

theorem getElem_pushed {n last : Nat} (hn : n < last) : (f last)[k + n] = next n := by
  rw [getElem_pushed_of_le h (Nat.succ_le_of_lt hn) (by omega)]
  simp only [h n]
  exact Vector.getElem_push_eq

end ProofOfWork

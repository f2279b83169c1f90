import Mathlib.Data.List.Basic
import ProofOfWork.Proofs.Blake256.Standard
import ProofOfWork.Proofs.Sha256.Rounds

/-!
# ProofOfWork.Proofs.Blake256.Compression — a block is compressed as the definition has it

The definition assigns the places of the working state one after the other, each from what the
assignments before left; the program works out all four new words and then puts them in.  The two
agree because the four places of a quarter differ (`mix_eq`).  The tables of the program hold what
the definition cuts out of numbers (`pi_eq`, `sigma_eq`).
-/

namespace ProofOfWork.Finisher.Blake256

open Sha256 (rotateLeft_eq_rotateRight)
open Sha256.Standard (rotateRight)

/-! ### Tables -/

theorem pi_eq (i : Fin 16) : pi.get i = Standard.constant i := by
  revert i
  decide +kernel

theorem sigma_eq (r : Nat) (k : Fin 16) :
    (sigma.get ⟨r % 10, Standard.row_lt r⟩).get k = Standard.order r k := by
  have hrows : ∀ (i : Fin 10) (k : Fin 16),
      (sigma.get i).get k = Standard.hexDigit (Standard.orders.get i) k := by decide
  exact hrows ⟨r % 10, Standard.row_lt r⟩ k

/-! ### Rotations -/

theorem sub_amount32 {m n : Fin 32} (h : m.val + n.val = 32) :
    32 - n.val.toUInt32 = m.val.toUInt32 := by
  apply UInt32.toNat_inj.mp
  rw [UInt32.toNat_sub, toNat_amount32, toNat_amount32]
  change (4294967296 - n.val + 32) % 4294967296 = m.val
  omega

theorem rotr32_eq_rotateRight (x : UInt32) {m n : Fin 32} (h : m.val + n.val = 32) :
    rotr32 x n.val.toUInt32 = rotateRight n x := by
  rw [← rotateLeft_eq_rotateRight x h, ← rotl32_eq_rotateLeft, rotr32, rotl32, sub_amount32 h,
    sub_amount32 ((Nat.add_comm _ _).trans h), UInt32.or_comm]

/-! ### Four places -/

namespace Quarter

/-- No two of the places are the same. -/
structure Distinct (q : Quarter) : Prop where
  ab : q.a.val ≠ q.b.val
  ac : q.a.val ≠ q.c.val
  ad : q.a.val ≠ q.d.val
  bc : q.b.val ≠ q.c.val
  bd : q.b.val ≠ q.d.val
  cd : q.c.val ≠ q.d.val

section Put

variable (q : Quarter)

theorem a_lt : q.a.val < 16 := q.a.isLt

theorem b_lt : q.b.val < 16 := q.b.isLt

theorem c_lt : q.c.val < 16 := q.c.isLt

theorem d_lt : q.d.val < 16 := q.d.isLt

/-- New words in the four places. -/
def put (v : Vector UInt32 16) (a b c d : UInt32) : Vector UInt32 16 :=
  (((v.set q.a a q.a_lt).set q.b b q.b_lt).set q.c c q.c_lt).set q.d d q.d_lt

theorem put_put (v : Vector UInt32 16) (a b c d a' b' c' d' : UInt32) :
    q.put (q.put v a b c d) a' b' c' d' = q.put v a' b' c' d' := by
  apply Vector.ext
  intro i hi
  simp only [put, Vector.getElem_set]
  grind

end Put

variable {q : Quarter} (h : q.Distinct) (v : Vector UInt32 16) (a b c d : UInt32)
include h

theorem Distinct.get_put_a : (q.put v a b c d).get q.a = a := by
  change (q.put v a b c d)[q.a.val] = a
  simp [put, h.ab.symm, h.ac.symm, h.ad.symm]

theorem Distinct.get_put_b : (q.put v a b c d).get q.b = b := by
  change (q.put v a b c d)[q.b.val] = b
  simp [put, h.bc.symm, h.bd.symm]

theorem Distinct.get_put_c : (q.put v a b c d).get q.c = c := by
  change (q.put v a b c d)[q.c.val] = c
  simp [put, h.cd.symm]

omit h in
theorem get_put_d : (q.put v a b c d).get q.d = d := by
  change (q.put v a b c d)[q.d.val] = d
  simp [put]

/-- What the four assignments of a half leave. -/
theorem Distinct.halfG_eq (x : UInt32) (m n : Fin 32) :
    Standard.halfG x m n q.a q.b q.c q.d v =
      let a := v.get q.a + v.get q.b + x
      let d := rotateRight m (v.get q.d ^^^ a)
      let c := v.get q.c + d
      let b := rotateRight n (v.get q.b ^^^ c)
      q.put v a b c d := by
  obtain ⟨hab, hac, had, hbc, hbd, hcd⟩ := h
  have hget (i : Fin 16) : v.get i = v[i.val] := rfl
  apply Vector.ext
  intro i hi
  simp only [Standard.halfG, put, Fin.getElem_fin, hget, Vector.getElem_set]
  grind

end Quarter

theorem distinct_of_mem {q : Quarter} (h : q ∈ quarters) : q.Distinct := by
  simp only [quarters, List.mem_cons, List.not_mem_nil, or_false] at h
  rcases h with rfl | rfl | rfl | rfl | rfl | rfl | rfl | rfl <;> constructor <;> decide

/-! ### Rounds -/

theorem mix_eq {q : Quarter} (h : q.Distinct) (m : Vector UInt32 16) (v : Vector UInt32 16)
    (r : Nat) : mix m (sigma.get ⟨r % 10, Standard.row_lt r⟩) v q
      = Standard.G m r q.pair q.a q.b q.c q.d v := by
  have h16 (x : UInt32) : rotateRight 16 x = rotr32 x 16 :=
    (rotr32_eq_rotateRight x (m := 16) (n := 16) rfl).symm
  have h12 (x : UInt32) : rotateRight 12 x = rotr32 x 12 :=
    (rotr32_eq_rotateRight x (m := 20) (n := 12) rfl).symm
  have h8 (x : UInt32) : rotateRight 8 x = rotr32 x 8 :=
    (rotr32_eq_rotateRight x (m := 24) (n := 8) rfl).symm
  have h7 (x : UInt32) : rotateRight 7 x = rotr32 x 7 :=
    (rotr32_eq_rotateRight x (m := 25) (n := 7) rfl).symm
  simp only [Standard.G, h.halfG_eq, Quarter.put_put, h.get_put_a, h.get_put_b, h.get_put_c,
    Quarter.get_put_d, h16, h12, h8, h7, ← pi_eq, ← sigma_eq]
  rfl

theorem round_eq (m : Vector UInt32 16) : round m = Standard.round m := by
  funext v r
  have hmix (v : Vector UInt32 16) (q : Quarter) (h : q ∈ quarters) :=
    mix_eq (distinct_of_mem h) m v r
  exact List.foldl_ext _ _ v hmix

/-- The words of a block and the two halves of the counter are what the definition reads. -/
theorem compress_eq (h : Chain) (block : Vector UInt8 64) (counter : UInt64) :
    compress h block counter = Standard.compress (Vector.replicate 4 0) h
      (words32 .big (n := 16) block) counter.toNat := by
  have hlow : counter.toUInt32 = counter.toNat.toUInt32 := by
    apply UInt32.toNat_inj.mp
    simp
  have hhigh : (counter >>> 32).toUInt32 = (counter.toNat / 2 ^ 32).toUInt32 := by
    apply UInt32.toNat_inj.mp
    simp [UInt64.toNat_shiftRight, Nat.shiftRight_eq_div_pow]
  have hsalt (i : Fin 4) : (Vector.replicate 4 (0 : UInt32)).get i = 0 :=
    Vector.getElem_replicate i.isLt
  have hstart (t0 t1 : UInt32) :
      (#v[pi[0], pi[1], pi[2], pi[3], pi[4] ^^^ t0, pi[5] ^^^ t0, pi[6] ^^^ t1, pi[7] ^^^ t1] :
        Vector UInt32 8) = #v[pi.get 0, pi.get 1, pi.get 2, pi.get 3, t0 ^^^ pi.get 4,
        t0 ^^^ pi.get 5, t1 ^^^ pi.get 6, t1 ^^^ pi.get 7] := by
    rw [UInt32.xor_comm t0, UInt32.xor_comm t0, UInt32.xor_comm t1, UInt32.xor_comm t1]
    rfl
  simp only [compress, Standard.compress, round_eq, hlow, hhigh, hstart, hsalt, pi_eq,
    UInt32.zero_xor, UInt32.xor_zero]
  rfl

end ProofOfWork.Finisher.Blake256

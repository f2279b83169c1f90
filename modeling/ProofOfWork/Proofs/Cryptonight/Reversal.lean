import Mathlib.Logic.Equiv.Defs
import ProofOfWork.Cryptonight.Mixing
import ProofOfWork.Proofs.Aes.Decrypt

/-!
# ProofOfWork.Proofs.Cryptonight.Reversal — the passes of variants 0 and 1 backwards

A pass overwrites two lines, and what it leaves is enough to find both: `b` names the line that the
product was made with, and when that is back, so is `a`, which names the line that the round was
made of.  Each half of a pass has its own reversal (`undoProduct`, `undoRound`), whichever lines they
name, the same one included.  The bits that variant 1 flips are chosen by the byte they are in; the
flipped byte still says which ones they were (`flipMask_flipped`).
-/

namespace ProofOfWork.Cryptonight

open Function (LeftInverse RightInverse Bijective)

/-! ### The flipped byte -/

/-- The bits of the upper half that `table` flips for the byte `v`. -/
def flipMask (table : UInt32) (v : UInt8) : UInt64 :=
  let i := ((v >>> 3) &&& 6 ||| v &&& 1) <<< 1
  (table >>> i.toUInt32 &&& 0x30).toUInt64 <<< 24

def flipBy (table : UInt32) (x : Line) : Line :=
  ⟨x.lo, x.hi ^^^ flipMask table (x.hi >>> 24).toUInt8⟩

def unflipByte11 : Line → Line := flipBy 0x57130

theorem flipByte11_eq_flipBy : flipByte11 = flipBy 0x75310 := rfl

/-- The flipped byte selects in the other table the bits that were flipped in it. -/
theorem flipMask_flipped (v : UInt8) :
    flipMask 0x57130 (v ^^^ (flipMask 0x75310 v >>> 24).toUInt8) = flipMask 0x75310 v ∧
      flipMask 0x75310 (v ^^^ (flipMask 0x57130 v >>> 24).toUInt8) = flipMask 0x57130 v := by
  revert v
  apply forall_byte
  decide +kernel

theorem flipBy_flipBy {s t : UInt32}
    (h : ∀ v, flipMask t (v ^^^ (flipMask s v >>> 24).toUInt8) = flipMask s v) (x : Line) :
    flipBy t (flipBy s x) = x := by
  apply Line.ext_halves
  · rfl
  · simp only [flipBy, UInt64.shiftRight_xor, UInt64.toUInt8_xor, h]
    rw [UInt64.xor_assoc, UInt64.xor_self, UInt64.xor_zero]

def flipPerm : Equiv.Perm Line where
  toFun := flipByte11
  invFun := unflipByte11
  left_inv x := by
    rw [flipByte11_eq_flipBy, unflipByte11, flipBy_flipBy fun v => (flipMask_flipped v).1]
  right_inv x := by
    rw [flipByte11_eq_flipBy, unflipByte11, flipBy_flipBy fun v => (flipMask_flipped v).2]

namespace Mixer

/-! ### The halves of a pass -/

theorem line_lt_lineCount (j : Fin lineCount) : j.val < lineCount := j.isLt

/-- The pad with another line `j`. -/
def putLine (pad : Pad) (j : Fin lineCount) (x : Line) : Pad := pad.set j x (line_lt_lineCount j)

theorem get_putLine (pad : Pad) (j : Fin lineCount) (x : Line) : (putLine pad j x).get j = x :=
  Vector.getElem_set_self j.isLt

/-- A line that was overwritten is written back. -/
theorem putLine_back (pad : Pad) (j : Fin lineCount) (x : Line) :
    putLine (putLine pad j x) j (pad.get j) = pad := by
  rw [putLine, putLine, Vector.set_set]
  exact Vector.set_getElem_self j.isLt

theorem roundStep_eq (flip : Line → Line) (m : Mixer) : roundStep flip m =
    let j := lineIndex m.a.lo
    let c := Aes.round (m.pad.get j) m.a
    ⟨putLine m.pad j (flip (c ^^^ m.b)), m.a, c⟩ := rfl

theorem productStep_eq (tweak : UInt64) (m : Mixer) : productStep tweak m =
    let j := lineIndex m.b.lo
    let c := m.pad.get j
    let sum := m.a + productLine m.b.lo c.lo
    ⟨putLine m.pad j ⟨sum.lo, sum.hi ^^^ tweak⟩, c ^^^ sum, m.b⟩ := rfl

/-- The line that the round was made of, and the old `b` out of the line that was written. -/
def undoRound (unflip : Line → Line) (m : Mixer) : Mixer :=
  let j := lineIndex m.a.lo
  ⟨putLine m.pad j (Aes.decrypt m.b m.a), m.a, m.b ^^^ unflip (m.pad.get j)⟩

/-- The sum out of the line that was written, from it the line that was there, and the old `a`. -/
def undoProduct (tweak : UInt64) (m : Mixer) : Mixer :=
  let j := lineIndex m.b.lo
  let stored := m.pad.get j
  let sum : Line := ⟨stored.lo, stored.hi ^^^ tweak⟩
  let c := m.a ^^^ sum
  ⟨putLine m.pad j c, sum - productLine m.b.lo c.lo, m.b⟩

theorem undoRound_roundStep (flip : Equiv.Perm Line) (m : Mixer) :
    undoRound flip.symm (roundStep flip m) = m := by
  obtain ⟨pad, a, b⟩ := m
  -- the new `b` is the round's result, so the written line leaves the old one when it is added
  simp only [undoRound, roundStep_eq, get_putLine, Equiv.symm_apply_apply,
    Line.xor_xor_cancel_left, Aes.decrypt_round, putLine_back]

theorem roundStep_undoRound (flip : Equiv.Perm Line) (m : Mixer) :
    roundStep flip (undoRound flip.symm m) = m := by
  obtain ⟨pad, a, b⟩ := m
  simp only [undoRound, roundStep_eq, get_putLine, Aes.round_decrypt, Line.xor_xor_cancel_left,
    Equiv.apply_symm_apply, putLine_back]

/-- The tweak comes off the upper half as it went on. -/
theorem tweak_off (x : Line) (tweak : UInt64) : (⟨x.lo, x.hi ^^^ tweak ^^^ tweak⟩ : Line) = x := by
  rw [UInt64.xor_assoc, UInt64.xor_self, UInt64.xor_zero]

theorem undoProduct_productStep (tweak : UInt64) (m : Mixer) :
    undoProduct tweak (productStep tweak m) = m := by
  obtain ⟨pad, a, b⟩ := m
  -- the written line without its tweak is the sum; added to the new `a` it leaves the old line
  simp only [undoProduct, productStep_eq, get_putLine, tweak_off, Line.xor_xor_cancel_right,
    Line.add_sub_cancel_right, putLine_back]

theorem productStep_undoProduct (tweak : UInt64) (m : Mixer) :
    productStep tweak (undoProduct tweak m) = m := by
  obtain ⟨pad, a, b⟩ := m
  simp only [undoProduct, productStep_eq, get_putLine, Line.sub_add_cancel_right, tweak_off,
    Line.xor_xor_cancel_right, putLine_back]

/-! ### Passes -/

def undoPass (unflip : Line → Line) (tweak : UInt64) (m : Mixer) : Mixer :=
  undoRound unflip (undoProduct tweak m)

/-- A pass with any reversible change of the line that the round's result is written to. -/
def passPerm (flip : Equiv.Perm Line) (tweak : UInt64) : Equiv.Perm Mixer where
  toFun := pass flip tweak
  invFun := undoPass flip.symm tweak
  left_inv m := by rw [undoPass, pass, undoProduct_productStep, undoRound_roundStep]
  right_inv m := by rw [undoPass, pass, roundStep_undoRound, productStep_undoProduct]

theorem bijective_repeat {α : Type} {f : α → α} (h : Bijective f) (k : Nat) :
    Bijective (Nat.repeat f k) := by
  induction k with
  | zero => exact Function.bijective_id
  | succ k ih => exact h.comp ih

/-- The passes of variants 0 and 1 lose nothing: with any tweak, the pass backwards finds the pad and
both lines that a pass started with, so that after any number of passes no two starts have come to
the same. -/
theorem passes_reversible :
    (LeftInverse (undoPass id 0) passV0 ∧ RightInverse (undoPass id 0) passV0) ∧
    (∀ tweak, LeftInverse (undoPass unflipByte11 tweak) (passV1 tweak) ∧
      RightInverse (undoPass unflipByte11 tweak) (passV1 tweak)) ∧
    (∀ k, Bijective (Nat.repeat passV0 k)) ∧
    ∀ tweak k, Bijective (Nat.repeat (passV1 tweak) k) := by
  let plain := passPerm (Equiv.refl Line) 0
  let tweaked := passPerm flipPerm
  refine ⟨⟨plain.left_inv, plain.right_inv⟩,
    fun tweak => ⟨(tweaked tweak).left_inv, (tweaked tweak).right_inv⟩,
    fun k => bijective_repeat plain.bijective k,
    fun tweak k => bijective_repeat (tweaked tweak).bijective k⟩

end Mixer

end ProofOfWork.Cryptonight

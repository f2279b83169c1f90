import Mathlib.Data.Finite.Prod
import ProofOfWork.Line

/-!
# ProofOfWork.Proofs.Line — sums of lines

Lines can be added up in two ways, bit by bit and half by half, and both sums can be undone.
-/

namespace ProofOfWork.Line

theorem ext_halves {x y : Line} (hlo : x.lo = y.lo) (hhi : x.hi = y.hi) : x = y := by
  cases x
  cases y
  simp_all

instance : Finite Line :=
  Finite.of_injective (fun x : Line => (x.lo.toFin, x.hi.toFin)) fun x y h => by
    obtain ⟨hlo, hhi⟩ := Prod.mk.inj h
    exact ext_halves (UInt64.toFin_inj.mp hlo) (UInt64.toFin_inj.mp hhi)

/-! ### Sums -/

instance : Sub Line := ⟨fun x y => ⟨x.lo - y.lo, x.hi - y.hi⟩⟩

variable (x y : Line)

theorem xor_comm : x ^^^ y = y ^^^ x := ext_halves (UInt64.xor_comm _ _) (UInt64.xor_comm _ _)

theorem xor_assoc (z : Line) : x ^^^ y ^^^ z = x ^^^ (y ^^^ z) :=
  ext_halves (UInt64.xor_assoc _ _ _) (UInt64.xor_assoc _ _ _)

@[simp] theorem xor_self : x ^^^ x = zero := ext_halves UInt64.xor_self UInt64.xor_self

@[simp] theorem xor_zero : x ^^^ zero = x := ext_halves UInt64.xor_zero UInt64.xor_zero

@[simp] theorem xor_xor_cancel_right : x ^^^ y ^^^ y = x := by
  rw [xor_assoc, xor_self, xor_zero]

@[simp] theorem xor_xor_cancel_left : x ^^^ (x ^^^ y) = y := by
  rw [xor_comm, xor_comm x, xor_xor_cancel_right]

theorem xor_right_cancel {x y z : Line} (h : x ^^^ z = y ^^^ z) : x = y := by
  rw [← xor_xor_cancel_right x z, h, xor_xor_cancel_right]

theorem xor_left_cancel {x y z : Line} (h : x ^^^ y = x ^^^ z) : y = z := by
  rw [← xor_xor_cancel_left x y, h, xor_xor_cancel_left]

@[simp] theorem add_sub_cancel_right : x + y - y = x :=
  ext_halves (UInt64.add_sub_cancel _ _) (UInt64.add_sub_cancel _ _)

@[simp] theorem sub_add_cancel_right : x - y + y = x :=
  ext_halves (UInt64.sub_add_cancel _ _) (UInt64.sub_add_cancel _ _)

end ProofOfWork.Line

import ProofOfWork.Lanes.LaneUnit

/-!
# ProofOfWork.Lanes.Program — sequences of lane operations

Registers of one group each, eight unless said otherwise, and instructions on them.  An instruction
that fails leaves the registers as they were.
-/

namespace ProofOfWork.Lanes

inductive Instruction (regs : Nat := 8)
  | broadcast (d : Fin regs) (v : UInt32)
  | add (d x y : Fin regs)
  | add3 (d x y z : Fin regs)
  | add4 (d w x y z : Fin regs)
  | xor (d x y : Fin regs)
  | or (d x y : Fin regs)
  | and (d x y : Fin regs)
  | andNot (d x y : Fin regs)
  | shr (d x : Fin regs) (n : Fin 32)
  | shl (d x : Fin regs) (n : Fin 32)
  | rol (d x : Fin regs) (n : Fin 32)
  | load (d : Fin regs) (order : ByteOrder) (span : Span) (buf : Bytes)
deriving DecidableEq, Repr

abbrev RegisterFile (u : LaneUnit) (regs : Nat := 8) := Vector u.Group regs

def RegisterFile.zero (u : LaneUnit) (regs : Nat := 8) : RegisterFile u regs :=
  Vector.replicate regs (u.broadcast 0)

variable {regs : Nat}

namespace Instruction

/-- The register that an instruction writes. -/
def target : Instruction regs → Fin regs
  | broadcast d _ | add d _ _ | add3 d _ _ _ | add4 d _ _ _ _ | xor d _ _ | or d _ _ | and d _ _
  | andNot d _ _ | shr d _ _ | shl d _ _ | rol d _ _ | load d _ _ _ => d

/-- The group that an instruction computes. -/
def value (u : LaneUnit) (r : RegisterFile u regs) : Instruction regs → Except LaneError u.Group
  | broadcast _ v => .ok (u.broadcast v)
  | add _ x y => .ok (u.add (r.get x) (r.get y))
  | add3 _ x y z => .ok (u.add3 (r.get x) (r.get y) (r.get z))
  | add4 _ w x y z => .ok (u.add4 (r.get w) (r.get x) (r.get y) (r.get z))
  | xor _ x y => .ok (u.xor (r.get x) (r.get y))
  | or _ x y => .ok (u.or (r.get x) (r.get y))
  | and _ x y => .ok (u.and (r.get x) (r.get y))
  | andNot _ x y => .ok (u.andNot (r.get x) (r.get y))
  | shr _ x n => .ok (u.shr n (r.get x))
  | shl _ x n => .ok (u.shl n (r.get x))
  | rol _ x n => .ok (u.rol n (r.get x))
  | load _ order span buf => u.load order span buf

def run (u : LaneUnit) (r : RegisterFile u regs) (i : Instruction regs) :
    Except LaneError (RegisterFile u regs) :=
  (i.value u r).map fun g => r.set i.target g

end Instruction

/-- Runs instructions in order up to the first that fails. -/
def runProgram (u : LaneUnit) (p : List (Instruction regs)) (r : RegisterFile u regs) :
    Except LaneError (RegisterFile u regs) :=
  p.foldlM (fun r i => i.run u r) r

end ProofOfWork.Lanes

import Mathlib.Logic.Function.Basic
import ProofOfWork.Lanes.Program
import ProofOfWork.Proofs.Lanes.Buffer

/-!
# ProofOfWork.Proofs.Lanes.Program — a program runs in every lane by itself

The same instructions have a meaning on single words, one a register: plain 32-bit arithmetic, where
a load reads the word at lane `i`'s address.  Run on any backend, a program whose loads stay inside
their buffers leaves in every lane exactly what it leaves in the words that start as that lane: one
instruction keeps the two in step (`Lanewise.run`), and so does a program (`Lanewise.runProgram`).
-/

namespace ProofOfWork.Lanes

/-! ### The meaning on single words -/

abbrev Words (regs : Nat) := Fin regs → UInt32

variable {regs : Nat}

namespace Instruction

/-- The word that an instruction computes; a load reads where lane `i` stands. -/
def word? (i : Nat) (r : Words regs) : Instruction regs → Option UInt32
  | broadcast _ v => some v
  | add _ x y => some (r x + r y)
  | add3 _ x y z => some (r x + r y + r z)
  | add4 _ w x y z => some (r w + r x + r y + r z)
  | xor _ x y => some (r x ^^^ r y)
  | or _ x y => some (r x ||| r y)
  | and _ x y => some (r x &&& r y)
  | andNot _ x y => some (~~~r x &&& r y)
  | shr _ x n => some (r x >>> n.val.toUInt32)
  | shl _ x n => some (r x <<< n.val.toUInt32)
  | rol _ x n => some (rotateLeft (r x) n)
  | load _ order s buf => wordAt? order buf (s.address i)

def runOnWords (i : Nat) (r : Words regs) (ins : Instruction regs) : Option (Words regs) :=
  (ins.word? i r).map (Function.update r ins.target)

/-- A load reads inside its buffer on all of `way` lanes. -/
def InRange (way : Nat) : Instruction regs → Prop
  | load _ _ s buf => s.Inside way buf.size ∧ Addressable buf
  | _ => True

instance (way : Nat) (ins : Instruction regs) : Decidable (ins.InRange way) :=
  match ins with
  | load _ _ s buf => inferInstanceAs (Decidable (s.Inside way buf.size ∧ Addressable buf))
  | broadcast _ _ | add _ _ _ | add3 _ _ _ _ | add4 _ _ _ _ _ | xor _ _ _ | or _ _ _ | and _ _ _
  | andNot _ _ _ | shr _ _ _ | shl _ _ _ | rol _ _ _ => isTrue trivial

end Instruction

def runProgramOnWords (i : Nat) (p : List (Instruction regs)) (r : Words regs) :
    Option (Words regs) :=
  p.foldlM (fun r ins => ins.runOnWords i r) r

/-! ### A backend in step with its lanes -/

variable {u : LaneUnit}

/-- The words that the registers hold in lane `i`. -/
def RegisterFile.lane (r : RegisterFile u regs) (i : Fin u.way) : Words regs :=
  fun x => u.lane i (r.get x)

theorem RegisterFile.lane_set (r : RegisterFile u regs) (i : Fin u.way) (d : Fin regs)
    (hd : d.val < regs) (g : u.Group) :
    RegisterFile.lane (r.set d.val g hd) i = Function.update (r.lane i) d (u.lane i g) := by
  funext x
  change u.lane i (r.set d.val g hd)[x.val] = _
  rw [Vector.getElem_set, Function.update_apply]
  by_cases hx : x = d
  · rw [if_pos (congrArg Fin.val hx.symm), if_pos hx]
  · rw [if_neg (fun h => hx (Fin.ext h.symm)), if_neg hx]
    rfl

namespace LaneUnit.Lanewise

variable (hu : u.Lanewise)
include hu

theorem value (r : RegisterFile u regs) {ins : Instruction regs} (h : ins.InRange u.way) :
    ∃ g, ins.value u r = .ok g ∧ ∀ i : Fin u.way, ins.word? i (r.lane i) = some (u.lane i g) := by
  cases ins with
  | broadcast d v => exact ⟨_, rfl, fun i => by rw [hu.broadcast]; rfl⟩
  | add d x y => exact ⟨_, rfl, fun i => by rw [hu.add]; rfl⟩
  | add3 d x y z => exact ⟨_, rfl, fun i => by rw [hu.add3]; rfl⟩
  | add4 d w x y z => exact ⟨_, rfl, fun i => by rw [hu.add4]; rfl⟩
  | xor d x y => exact ⟨_, rfl, fun i => by rw [hu.xor]; rfl⟩
  | or d x y => exact ⟨_, rfl, fun i => by rw [hu.or]; rfl⟩
  | and d x y => exact ⟨_, rfl, fun i => by rw [hu.and]; rfl⟩
  | andNot d x y => exact ⟨_, rfl, fun i => by rw [hu.andNot]; rfl⟩
  | shr d x n => exact ⟨_, rfl, fun i => by rw [hu.shr]; rfl⟩
  | shl d x n => exact ⟨_, rfl, fun i => by rw [hu.shl]; rfl⟩
  | rol d x n => exact ⟨_, rfl, fun i => by rw [hu.rol]; rfl⟩
  | load d order s buf => exact hu.load order h.1 h.2

theorem run (r : RegisterFile u regs) {ins : Instruction regs} (h : ins.InRange u.way) :
    ∃ r', ins.run u r = .ok r' ∧
      ∀ i : Fin u.way, ins.runOnWords i (r.lane i) = some (RegisterFile.lane r' i) := by
  obtain ⟨g, hg, hw⟩ := hu.value r h
  refine ⟨r.set ins.target g, by rw [Instruction.run, hg]; rfl, fun i => ?_⟩
  rw [Instruction.runOnWords, hw, RegisterFile.lane_set]
  rfl

theorem runProgram {p : List (Instruction regs)} (h : ∀ ins ∈ p, ins.InRange u.way)
    (r : RegisterFile u regs) :
    ∃ r', Lanes.runProgram u p r = .ok r' ∧
      ∀ i : Fin u.way, runProgramOnWords i p (r.lane i) = some (RegisterFile.lane r' i) := by
  induction p generalizing r with
  | nil => exact ⟨r, rfl, fun i => rfl⟩
  | cons ins p ih =>
    obtain ⟨r1, hr1, hw1⟩ := hu.run r (h ins (by simp))
    obtain ⟨r2, hr2, hw2⟩ := ih (fun next hnext => h next (by simp [hnext])) r1
    refine ⟨r2, ?_, fun i => ?_⟩
    · rw [Lanes.runProgram, List.foldlM_cons, hr1]
      exact hr2
    · rw [runProgramOnWords, List.foldlM_cons, hw1 i]
      exact hw2 i

end LaneUnit.Lanewise

/-! ### Every backend -/

/-- Every backend runs a program in each lane as if that lane were alone.  In particular the sums,
shifts and rotations of packed words are those of the two words, and the registers' rotation by two
shifts is a rotation for every amount, zero included. -/
theorem lanes_run_alone :
    (∀ (regs : Nat) (b : Backend) (p : List (Instruction regs)) (r : RegisterFile b.unit regs),
      (∀ ins ∈ p, ins.InRange b.unit.way) →
      ∃ r', runProgram b.unit p r = .ok r' ∧ ∀ i : Fin b.unit.way,
        runProgramOnWords i p (r.lane i) = some (RegisterFile.lane r' i)) ∧
    (∀ x y : UInt64,
      Packed.low (packedUnit.add x y) = Packed.low x + Packed.low y ∧
      Packed.high (packedUnit.add x y) = Packed.high x + Packed.high y) ∧
    (∀ (n : Fin 32) (x : UInt64),
      Packed.low (packedUnit.shr n x) = Packed.low x >>> n.val.toUInt32 ∧
      Packed.high (packedUnit.shr n x) = Packed.high x >>> n.val.toUInt32 ∧
      Packed.low (packedUnit.shl n x) = Packed.low x <<< n.val.toUInt32 ∧
      Packed.high (packedUnit.shl n x) = Packed.high x <<< n.val.toUInt32 ∧
      Packed.low (packedUnit.rol n x) = rotateLeft (Packed.low x) n ∧
      Packed.high (packedUnit.rol n x) = rotateLeft (Packed.high x) n) ∧
    (∀ (way : Nat) (name : String) (n : Fin 32) (x : Vector UInt32 way) (i : Fin way),
      (registerUnit way name).lane i ((registerUnit way name).rol n x)
        = rotateLeft (x.get i) n) := by
  refine ⟨fun regs b p r h => b.lanewise.runProgram h r, fun x y => ?_, fun n x => ?_, ?_⟩
  · exact ⟨Packed.low_add x y, Packed.high_add x y⟩
  · exact ⟨Packed.low_shr n x, Packed.high_shr n x, Packed.low_shl n x, Packed.high_shl n x,
      Packed.low_rol n x, Packed.high_rol n x⟩
  · intro way name n x i
    exact get_shifts n x i

/-- Two words that are loaded, added to all ones and shifted. -/
def crossingProgram : List Instruction :=
  [.load 1 .little ⟨4, 0⟩ #[1, 0, 0, 128, 255, 255, 255, 255], .broadcast 2 0xffffffff, .add 3 1 2,
    .shl 4 3 1, .shr 5 3 31, .rol 6 3 0, .add4 7 1 2 3 4]

theorem lanes_run_alone_crossing :
    (∀ ins ∈ crossingProgram, ins.InRange packedUnit.way) ∧
    ∃ r', runProgram packedUnit crossingProgram (RegisterFile.zero packedUnit) = .ok r' ∧
      ∀ i : Fin packedUnit.way, runProgramOnWords i crossingProgram
        (RegisterFile.lane (RegisterFile.zero packedUnit) i) = some (RegisterFile.lane r' i) :=
  ⟨by decide, lanes_run_alone.1 8 .swar2 crossingProgram (RegisterFile.zero packedUnit) (by decide)⟩

end ProofOfWork.Lanes

import ProofOfWork.Proofs.Lanes.Packed

/-!
# ProofOfWork.Proofs.Lanes.Lanewise — a unit is its lanes

A unit is lanewise when each of its operations is the plain operation on words in every lane at
once. All backends are; what is proved of a lanewise unit afterwards needs nothing else about how a
group is stored.
-/

namespace ProofOfWork.Lanes

namespace LaneUnit

/-- The word in lane `i` of a group. -/
def lane (u : LaneUnit) (i : Fin u.way) (x : u.Group) : UInt32 := (u.toLanes x).get i

structure Lanewise (u : LaneUnit) : Prop where
  way_pos : 0 < u.way
  ofLanes (v : Vector UInt32 u.way) (i : Fin u.way) : u.lane i (u.ofLanes v) = v.get i
  broadcast (v : UInt32) (i : Fin u.way) : u.lane i (u.broadcast v) = v
  add (x y : u.Group) (i : Fin u.way) : u.lane i (u.add x y) = u.lane i x + u.lane i y
  xor (x y : u.Group) (i : Fin u.way) : u.lane i (u.xor x y) = u.lane i x ^^^ u.lane i y
  or (x y : u.Group) (i : Fin u.way) : u.lane i (u.or x y) = u.lane i x ||| u.lane i y
  and (x y : u.Group) (i : Fin u.way) : u.lane i (u.and x y) = u.lane i x &&& u.lane i y
  andNot (x y : u.Group) (i : Fin u.way) : u.lane i (u.andNot x y) = ~~~u.lane i x &&& u.lane i y
  shr (n : Fin 32) (x : u.Group) (i : Fin u.way) :
    u.lane i (u.shr n x) = u.lane i x >>> n.val.toUInt32
  shl (n : Fin 32) (x : u.Group) (i : Fin u.way) :
    u.lane i (u.shl n x) = u.lane i x <<< n.val.toUInt32
  rol (n : Fin 32) (x : u.Group) (i : Fin u.way) : u.lane i (u.rol n x) = rotateLeft (u.lane i x) n

namespace Lanewise

variable {u : LaneUnit} (hu : u.Lanewise)
include hu

theorem add3 (x y z : u.Group) (i : Fin u.way) :
    u.lane i (u.add3 x y z) = u.lane i x + u.lane i y + u.lane i z := by
  rw [LaneUnit.add3, hu.add, hu.add]

theorem add4 (w x y z : u.Group) (i : Fin u.way) :
    u.lane i (u.add4 w x y z) = u.lane i w + u.lane i x + u.lane i y + u.lane i z := by
  rw [LaneUnit.add4, hu.add, hu.add, hu.add, UInt32.add_assoc (u.lane i w + u.lane i x)]

end Lanewise

end LaneUnit

open LaneUnit

/-! ### One word -/

theorem forall_lane_scalarUnit {p : Fin scalarUnit.way → Prop} (h : p (0 : Fin 1))
    (i : Fin scalarUnit.way) : p i :=
  match i with
  | ⟨0, _⟩ => h

theorem scalarUnit_lanewise : scalarUnit.Lanewise where
  way_pos := by decide
  ofLanes _ := forall_lane_scalarUnit rfl
  broadcast _ := forall_lane_scalarUnit rfl
  add _ _ := forall_lane_scalarUnit rfl
  xor _ _ := forall_lane_scalarUnit rfl
  or _ _ := forall_lane_scalarUnit rfl
  and _ _ := forall_lane_scalarUnit rfl
  andNot _ _ := forall_lane_scalarUnit rfl
  shr _ _ := forall_lane_scalarUnit rfl
  shl _ _ := forall_lane_scalarUnit rfl
  rol n x := forall_lane_scalarUnit (rotl32_eq_rotateLeft x n)

/-! ### Two packed words -/

/-- A statement about the lanes of two packed words is one about either word. -/
theorem forall_lane_packedUnit {p : Fin packedUnit.way → Prop} (h0 : p (0 : Fin 2))
    (h1 : p (1 : Fin 2)) (i : Fin packedUnit.way) : p i :=
  match i with
  | ⟨0, _⟩ => h0
  | ⟨1, _⟩ => h1

theorem packedUnit_lanewise : packedUnit.Lanewise where
  way_pos := by decide
  ofLanes _ := forall_lane_packedUnit (Packed.low_pack _ _) (Packed.high_pack _ _)
  broadcast _ := forall_lane_packedUnit (Packed.low_pack _ _) (Packed.high_pack _ _)
  add x y := forall_lane_packedUnit (Packed.low_add x y) (Packed.high_add x y)
  xor x y := forall_lane_packedUnit (Packed.low_xor x y) (Packed.high_xor x y)
  or x y := forall_lane_packedUnit (Packed.low_or x y) (Packed.high_or x y)
  and x y := forall_lane_packedUnit (Packed.low_and x y) (Packed.high_and x y)
  andNot x y := forall_lane_packedUnit
    ((Packed.low_and _ y).trans (congrArg (· &&& Packed.low y) (Packed.low_not x)))
    ((Packed.high_and _ y).trans (congrArg (· &&& Packed.high y) (Packed.high_not x)))
  shr n x := forall_lane_packedUnit (Packed.low_shr n x) (Packed.high_shr n x)
  shl n x := forall_lane_packedUnit (Packed.low_shl n x) (Packed.high_shl n x)
  rol n x := forall_lane_packedUnit (Packed.low_rol n x) (Packed.high_rol n x)

/-! ### Words side by side -/

theorem softwareUnit_lanewise {way : Nat} (pos : 0 < way) : (softwareUnit way).Lanewise where
  way_pos := pos
  ofLanes _ _ := rfl
  broadcast _ i := Vector.getElem_replicate i.isLt
  add _ _ i := Vector.getElem_zipWith i.isLt
  xor _ _ i := Vector.getElem_zipWith i.isLt
  or _ _ i := Vector.getElem_zipWith i.isLt
  and _ _ i := Vector.getElem_zipWith i.isLt
  andNot _ _ i := Vector.getElem_zipWith i.isLt
  shr _ _ i := Vector.getElem_map _ i.isLt
  shl _ _ i := Vector.getElem_map _ i.isLt
  rol n _ i := (Vector.getElem_map _ i.isLt).trans (rotl32_eq_rotateLeft _ n)

/-! ### Vector registers -/

theorem shiftUp_of_lt (n : Fin 32) (a : UInt32) : shiftUp n a = a <<< n.val.toUInt32 :=
  if_pos n.isLt

theorem shiftDown_of_lt (n : Fin 32) (a : UInt32) : shiftDown n a = a >>> n.val.toUInt32 :=
  if_pos n.isLt

/-- At `n = 0` the second shift is by the word's whole width and leaves zero. -/
theorem shiftUp_or_shiftDown (n : Fin 32) (a : UInt32) :
    shiftUp n a ||| shiftDown (32 - n) a = rotateLeft a n := by
  rw [shiftUp_of_lt]
  by_cases h0 : n = 0
  · subst h0
    rw [rotateLeft_zero]
    apply eq_of_bit32
    intro i hi
    simp [shiftDown]
  · have hn : n.val ≠ 0 := fun h => h0 (Fin.ext h)
    have hd : shiftDown (32 - n) a = a >>> (32 - n.val).toUInt32 := if_pos (by omega)
    have hs := toNat_amount32 ⟨32 - n.val, by omega⟩
    have ha := bit32_of_ge a (i := 32 - n.val + n.val)
    apply eq_of_bit32
    intro i hi
    rw [hd]
    simp only [bit32_or, bit32_shiftLeft, bit32_shiftRight, bit32_rotateLeft, toNat_amount32]
      at hs ⊢
    rw [hs, Nat.mod_eq_of_lt n.isLt, Nat.mod_eq_of_lt (show 32 - n.val < 32 by omega)]
    by_cases h : i < n.val
    · simp [h]
    · rw [bit32_of_ge a (show 32 ≤ 32 - n.val + i by omega)]
      simp [h]

theorem get_shifts {way : Nat} (n : Fin 32) (x : Vector UInt32 way) (i : Fin way) :
    (Vector.zipWith (· ||| ·) (x.map (shiftUp n)) (x.map (shiftDown (32 - n)))).get i
      = rotateLeft (x.get i) n := by
  change (Vector.zipWith _ _ _)[i.val] = rotateLeft x[i.val] n
  rw [Vector.getElem_zipWith, Vector.getElem_map, Vector.getElem_map, shiftUp_or_shiftDown]

theorem registerUnit_lanewise {way : Nat} (name : String) (pos : 0 < way) :
    (registerUnit way name).Lanewise where
  way_pos := pos
  ofLanes _ _ := rfl
  broadcast := (softwareUnit_lanewise pos).broadcast
  add := (softwareUnit_lanewise pos).add
  xor := (softwareUnit_lanewise pos).xor
  or := (softwareUnit_lanewise pos).or
  and := (softwareUnit_lanewise pos).and
  andNot := (softwareUnit_lanewise pos).andNot
  shr n _ i := (Vector.getElem_map _ i.isLt).trans (shiftDown_of_lt n _)
  shl n _ i := (Vector.getElem_map _ i.isLt).trans (shiftUp_of_lt n _)
  rol n x i := get_shifts n x i

/-! ### All of them -/

theorem Backend.lanewise (b : Backend) : b.unit.Lanewise := by
  cases b with
  | scalar => exact scalarUnit_lanewise
  | swar2 => exact packedUnit_lanewise
  | soft way pos => exact softwareUnit_lanewise pos
  | sse2 => exact registerUnit_lanewise _ (by decide)
  | avx2 => exact registerUnit_lanewise _ (by decide)

end ProofOfWork.Lanes

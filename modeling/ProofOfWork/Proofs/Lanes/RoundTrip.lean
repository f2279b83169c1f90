import ProofOfWork.Proofs.Digits
import ProofOfWork.Proofs.Lanes.Buffer

/-!
# ProofOfWork.Proofs.Lanes.RoundTrip — groups saved and loaded again

What a save leaves in a buffer is said byte by byte (`Saved`): the last lane that covers a byte gives
it.  From there a load gets the group back where no two lanes share a byte.  The other way round
lanes may overlap as they like: the words that a load finds agree on what they share, so that
writing any number of them back changes nothing (`scatter_gather`).
-/

namespace ProofOfWork.Lanes

/-! ### Groups and their lanes -/

/-- No backend keeps more in a group than its lanes. -/
theorem Backend.ofLanes_toLanes (b : Backend) (x : b.unit.Group) :
    b.unit.ofLanes (b.unit.toLanes x) = x := by
  cases b with
  | scalar => rfl
  | swar2 => exact Packed.eq_of_low_high (Packed.low_pack _ _) (Packed.high_pack _ _)
  | soft way pos => rfl
  | sse2 => rfl
  | avx2 => rfl

theorem LaneUnit.Lanewise.toLanes_ofLanes {u : LaneUnit} (hu : u.Lanewise)
    (v : Vector UInt32 u.way) : u.toLanes (u.ofLanes v) = v := by
  apply Vector.ext
  intro i hi
  exact hu.ofLanes v ⟨i, hi⟩

/-! ### What a save leaves -/

/-- What a save leaves in a buffer: each byte under a lane is that of the last lane over it, and the
others are as before. -/
structure Saved (u : LaneUnit) (order : ByteOrder) (x : u.Group) (s : Span) (before after : Bytes) :
    Prop where
  size : after.size = before.size
  covered : ∀ p < before.size, ∀ i : Fin u.way, s.Covers i p →
    (∀ m < u.way, i.val < m → ¬ s.Covers m p) →
    after[p]? = some (order.byteAt (u.lane i x) (p - s.address i))
  uncovered : ∀ p < before.size, (∀ i < u.way, ¬ s.Covers i p) → after[p]? = before[p]?

variable {u : LaneUnit}

theorem saved_scatter (order : ByteOrder) (x : u.Group) (s : Span) (buf : Bytes) :
    Saved u order x s buf (scatter order s (u.toLanes x) buf) := by
  refine ⟨size_scatter order s _ buf, ?_, ?_⟩
  · intro p hp i hcover hlast
    obtain ⟨k, rfl⟩ := Nat.exists_eq_add_of_le hcover.1
    have hk : k < 4 := by omega
    rw [getElem?_scatter_of_last order s (u.toLanes x) buf i.isLt hk hp
      fun m hm hmw => hlast m hmw hm, order.getElem_write _ hk, Nat.add_sub_cancel_left]
    rfl
  · intro p hp hno
    exact getElem?_scatter_of_uncovered order s (u.toLanes x) buf hp hno

/-! ### Loading what was saved -/

/-- Lanes four bytes apart share none. -/
theorem Span.not_covers_of_covers {s : Span} {way : Nat} (h : way = 1 ∨ 4 ≤ s.stride) {i m p : Nat}
    (hi : i < m) (hm : m < way) (hcover : s.Covers i p) : ¬ s.Covers m p := by
  rintro ⟨hstart, -⟩
  rcases h with rfl | h
  · omega
  · have hnext : (i + 1) * s.stride ≤ m * s.stride := Nat.mul_le_mul_right _ hi
    have hfirst := hcover.2
    unfold Span.address at *
    rw [Nat.succ_mul] at hnext
    omega

theorem gather_scatter (order : ByteOrder) {way : Nat} {s : Span} (h : way = 1 ∨ 4 ≤ s.stride)
    (v : Vector UInt32 way) {buf : Bytes} (hs : s.Inside way (scatter order s v buf).size) :
    gather order s (scatter order s v buf) hs = v := by
  apply Vector.ext
  intro i hi
  have hbytes : slice (scatter order s v buf).toVector (s.address i) 4 (hs i hi)
      = order.write v[i] := by
    apply Vector.ext
    intro k hk
    have hend := hs i hi
    rw [size_scatter] at hend
    have hlast (m : Nat) (hm : i < m) (hmw : m < way) : ¬ s.Covers m (s.address i + k) :=
      Span.not_covers_of_covers h hm hmw ⟨by omega, by omega⟩
    have hbyte := getElem?_scatter_of_last order s v buf hi hk (by omega) hlast
    rw [Array.getElem?_eq_getElem (by rw [size_scatter]; omega), Option.some.injEq] at hbyte
    rw [slice, Vector.getElem_ofFn]
    exact hbyte
  rw [gather, Vector.getElem_ofFn]
  simp only [hbytes, order.read_write]

/-! ### Saving what was loaded -/

theorem putWord_slice (buf : Bytes) {pos : Nat} (h : pos + 4 ≤ buf.size) :
    putWord buf pos (slice buf.toVector pos 4 h) = buf := by
  apply Array.ext_getElem?
  intro p
  by_cases hp : p < buf.size
  · rw [getElem?_putWord _ _ _ hp]
    split
    next hin =>
      obtain ⟨k, rfl⟩ := Nat.exists_eq_add_of_le hin.1
      simp only [Nat.add_sub_cancel_left, slice, Vector.getElem_ofFn]
      exact (Array.getElem?_eq_getElem hp).symm
    next => rfl
  · rw [Array.getElem?_eq_none (by rw [size_putWord]; omega), Array.getElem?_eq_none (by omega)]

/-- Each word is written over its own bytes, which nothing has changed before. -/
theorem scatter_gather (order : ByteOrder) {way : Nat} {s : Span} {buf : Bytes}
    (h : s.Inside way buf.size) : scatter order s (gather order s buf h) buf = buf := by
  induction way with
  | zero => rfl
  | succ way ih =>
    have hrest : s.Inside way buf.size := fun i hi => h i (Nat.lt_succ_of_lt hi)
    rw [scatter_succ, gather_succ order h hrest, Vector.pop_push, ih hrest,
      Vector.getElem_push_last, order.write_read, putWord_slice]

/-! ### Both ways -/

/-- On every backend and in either order, wherever a span fits: a save leaves in each byte that of
the last lane over it and does not touch the others; where lanes do not overlap, a load of the place
has the group that was saved; and a group that was loaded can be saved back, lanes overlapping or
not, with nothing changed. -/
theorem saves_and_loads_inverse (b : Backend) (order : ByteOrder) {s : Span} {buf : Bytes}
    (hb : Addressable buf) (hs : s.offset + (b.unit.way - 1) * s.stride + 4 ≤ buf.size) :
    (∀ x : b.unit.Group, ∃ after, b.unit.save order x s buf = .ok after ∧
      Saved b.unit order x s buf after ∧
      (b.unit.way = 1 ∨ 4 ≤ s.stride → b.unit.load order s after = .ok x)) ∧
    ∃ x, b.unit.load order s buf = .ok x ∧ b.unit.save order x s buf = .ok buf := by
  have hpos := b.lanewise.way_pos
  have hin : s.Inside b.unit.way buf.size := (Span.inside_iff hpos).mpr hs
  have hadmits := LaneUnit.admits_of_inside hpos hin hb
  refine ⟨fun x => ⟨_, if_pos hadmits, saved_scatter order x s buf, fun h => ?_⟩,
    b.unit.ofLanes (gather order s buf hin), dif_pos hadmits, ?_⟩
  · have hsize := size_scatter order s (b.unit.toLanes x) buf
    have hagain : b.unit.Admits s (scatter order s (b.unit.toLanes x) buf).size := by
      rwa [hsize]
    rw [LaneUnit.load, dif_pos hagain, gather_scatter order h, b.ofLanes_toLanes]
  · rw [LaneUnit.save, if_pos hadmits, b.lanewise.toLanes_ofLanes, scatter_gather]

/-- Two packed words that share two bytes, and four registers five bytes apart. -/
theorem saves_and_loads_inverse_overlapping :
    let buf : Bytes := Array.replicate 22 7
    let packed := Backend.swar2.unit
    let registers := Backend.sse2.unit
    let x : UInt64 := 0x0807060504030201
    let v : Vector UInt32 4 := #v[1, 2, 3, 4]
    Addressable buf ∧ 1 + (packed.way - 1) * 2 + 4 ≤ buf.size ∧
      3 + (registers.way - 1) * 5 + 4 ≤ buf.size ∧ 4 ≤ 5 ∧
      (∃ g, packed.load .big ⟨2, 1⟩ buf = .ok g ∧ packed.save .big g ⟨2, 1⟩ buf = .ok buf) ∧
      (∃ after, packed.save .little x ⟨2, 1⟩ buf = .ok after ∧
        after[2]? = some 2 ∧ after[3]? = some 5 ∧ after[7]? = some 7) ∧
      ∃ after, registers.save .big v ⟨5, 3⟩ buf = .ok after ∧
        registers.load .big ⟨5, 3⟩ after = .ok v := by
  intro buf packed registers x v
  have hsize : buf.size = 22 := Array.size_replicate
  have hb : Addressable buf := by
    rw [Addressable, hsize, UInt64.size]
    omega
  have htight : 1 + (packed.way - 1) * 2 + 4 ≤ buf.size := by
    rw [hsize]
    decide
  have hwide : 3 + (registers.way - 1) * 5 + 4 ≤ buf.size := by
    rw [hsize]
    decide
  obtain ⟨hsave, -⟩ := saves_and_loads_inverse .swar2 .little (s := ⟨2, 1⟩) hb htight
  obtain ⟨-, hback⟩ := saves_and_loads_inverse .swar2 .big (s := ⟨2, 1⟩) hb htight
  obtain ⟨hregisters, -⟩ := saves_and_loads_inverse .sse2 .big (s := ⟨5, 3⟩) hb hwide
  obtain ⟨after, hafter, hsaved, -⟩ := hsave x
  obtain ⟨again, hagain, -, hload⟩ := hregisters v
  refine ⟨hb, htight, hwide, by decide, hback, ⟨after, hafter, ?_, ?_, ?_⟩,
    again, hagain, hload (.inr (by decide))⟩
  · rw [hsaved.covered 2 (by rw [hsize]; decide) (0 : Fin 2) (by decide) (by decide)]
    decide +kernel
  · rw [hsaved.covered 3 (by rw [hsize]; decide) (1 : Fin 2) (by decide) (by decide)]
    decide +kernel
  · rw [hsaved.uncovered 7 (by rw [hsize]; decide) (by decide)]
    rfl

end ProofOfWork.Lanes

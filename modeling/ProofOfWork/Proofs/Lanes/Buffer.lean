import ProofOfWork.Proofs.Lanes.Lanewise

/-!
# ProofOfWork.Proofs.Lanes.Buffer — groups in buffers

A span that is inside a buffer passes the check of its end, so that a load gives every lane the word
at its address and a save writes it there.  Where lanes overlap, a byte is the one of the last lane
that covers it; a byte under no lane stays.
-/

namespace ProofOfWork.Lanes

/-- The length of a buffer is a machine size. -/
def Addressable (buf : Bytes) : Prop := buf.size < UInt64.size

instance (buf : Bytes) : Decidable (Addressable buf) := inferInstanceAs (Decidable (_ < _))

/-- The word at a place of a buffer. -/
def wordAt? (order : ByteOrder) (buf : Bytes) (pos : Nat) : Option UInt32 :=
  if h : pos + 4 ≤ buf.size then some (order.read (slice buf.toVector pos 4 h)) else none

/-! ### The check -/

/-- A product that is too big for a machine word is past every buffer. -/
theorem checkedMul_any_le {a b len : Nat} (hl : len < UInt64.size) :
    (checkedMul a b).any (· ≤ len) = true ↔ a * b ≤ len := by
  unfold checkedMul
  split
  next => rw [Option.any_some, decide_eq_true_eq]
  next hbig =>
    rw [Option.any_none]
    refine iff_of_false Bool.false_ne_true ?_
    omega

/-- The last lane reaches farthest. -/
theorem Span.inside_iff {s : Span} {way len : Nat} (hw : 0 < way) :
    s.Inside way len ↔ s.address (way - 1) + 4 ≤ len := by
  refine ⟨fun hs => hs (way - 1) (by omega), fun hlast i hi => ?_⟩
  have hle : i * s.stride ≤ (way - 1) * s.stride := Nat.mul_le_mul_right _ (by omega)
  unfold address at *
  omega

/-- The check computes where the last lane ends; what is too big for it is past every buffer. -/
theorem Span.fits_iff {s : Span} {way len : Nat} (hl : len < UInt64.size) :
    s.fits way len = true ↔ s.address (way - 1) + 4 ≤ len := by
  unfold fits limit? checkedMul checkedAdd address
  generalize (way - 1) * s.stride = reach
  by_cases hreach : reach < UInt64.size
  · by_cases hlast : reach + s.offset < UInt64.size
    · by_cases hend : reach + s.offset + 4 < UInt64.size
      · simp [hreach, hlast, hend]
        omega
      · simp [hreach, hlast, hend]
        omega
    · simp [hreach, hlast]
      omega
  · simp [hreach]
    omega

theorem Span.fits_of_inside {s : Span} {way len : Nat} (hw : 0 < way) (hs : s.Inside way len)
    (hl : len < UInt64.size) : s.fits way len = true :=
  (fits_iff hl).mpr ((inside_iff hw).mp hs)

variable {u : LaneUnit}

theorem LaneUnit.admits_of_inside {s : Span} {buf : Bytes} (hw : 0 < u.way)
    (hs : s.Inside u.way buf.size) (hb : Addressable buf) : u.Admits s buf.size :=
  ⟨fun _ => Span.fits_of_inside hw hs hb, hs⟩

theorem LaneUnit.admits_iff {s : Span} {buf : Bytes} (hw : 0 < u.way) (hb : Addressable buf) :
    u.Admits s buf.size ↔ s.address (u.way - 1) + 4 ≤ buf.size := by
  rw [← Span.inside_iff hw]
  exact ⟨And.right, fun hs => admits_of_inside hw hs hb⟩

/-! ### Loads -/

theorem gather_succ (order : ByteOrder) {way : Nat} {s : Span} {buf : Bytes}
    (h : s.Inside (way + 1) buf.size) (h' : s.Inside way buf.size) :
    gather order s buf h = (gather order s buf h').push
      (order.read (slice buf.toVector (s.address way) 4 (h way (Nat.lt_succ_self way)))) := by
  apply Vector.ext
  intro i hi
  rw [Vector.getElem_push]
  split
  next hlt => simp only [gather, Vector.getElem_ofFn]
  next hge =>
    obtain rfl : i = way := by omega
    simp only [gather, Vector.getElem_ofFn]

/-- A load from inside a buffer puts into every lane the word at its address. -/
theorem LaneUnit.Lanewise.load (hu : u.Lanewise) (order : ByteOrder) {s : Span} {buf : Bytes}
    (hs : s.Inside u.way buf.size) (hb : Addressable buf) :
    ∃ g, u.load order s buf = .ok g ∧
      ∀ i : Fin u.way, wordAt? order buf (s.address i) = some (u.lane i g) := by
  refine ⟨_, dif_pos (LaneUnit.admits_of_inside hu.way_pos hs hb), fun i => ?_⟩
  rw [hu.ofLanes, wordAt?, dif_pos (hs i i.isLt)]
  change _ = some (gather order s buf hs)[i.val]
  rw [gather, Vector.getElem_ofFn]

/-! ### Saves -/

theorem size_putWord (buf : Bytes) (pos : Nat) (w : Vector UInt8 4) :
    (putWord buf pos w).size = buf.size := by
  simp [putWord]

theorem getElem?_putWord (buf : Bytes) (pos : Nat) (w : Vector UInt8 4) {p : Nat}
    (hp : p < buf.size) : (putWord buf pos w)[p]?
      = if h : pos ≤ p ∧ p < pos + 4 then some (w[p - pos]) else buf[p]? := by
  simp only [putWord, Nat.fold_succ, Nat.fold_zero, Array.getElem?_setIfInBounds,
    Array.size_setIfInBounds]
  by_cases h : pos ≤ p ∧ p < pos + 4
  · obtain ⟨k, rfl⟩ := Nat.exists_eq_add_of_le h.1
    have hk : k = 0 ∨ k = 1 ∨ k = 2 ∨ k = 3 := by omega
    rcases hk with rfl | rfl | rfl | rfl <;> simp_all
  · rw [dif_neg h, if_neg, if_neg, if_neg, if_neg] <;> omega

/-- The last lane is written last. -/
theorem scatter_succ (order : ByteOrder) {way : Nat} (s : Span) (x : Vector UInt32 (way + 1))
    (buf : Bytes) : scatter order s x buf
      = putWord (scatter order s x.pop buf) (s.address way) (order.write x[way]) := by
  have h : (fun i (hi : i < way) buf => putWord buf (s.address i) (order.write x[i]))
      = fun i (hi : i < way) buf => putWord buf (s.address i) (order.write x.pop[i]) := by
    funext i hi buf
    rw [Vector.getElem_pop]
  rw [scatter, Nat.fold_succ, h]
  rfl

@[simp] theorem size_scatter (order : ByteOrder) {way : Nat} (s : Span) (x : Vector UInt32 way)
    (buf : Bytes) : (scatter order s x buf).size = buf.size := by
  induction way with
  | zero => rfl
  | succ way ih => rw [scatter_succ, size_putWord, ih]

/-- Lane `i` of a span holds byte `p`. -/
abbrev Span.Covers (s : Span) (i p : Nat) : Prop := s.address i ≤ p ∧ p < s.address i + 4

theorem getElem?_scatter_of_uncovered (order : ByteOrder) {way : Nat} (s : Span)
    (x : Vector UInt32 way) (buf : Bytes) {p : Nat} (hp : p < buf.size)
    (h : ∀ i < way, ¬ s.Covers i p) : (scatter order s x buf)[p]? = buf[p]? := by
  induction way with
  | zero => rfl
  | succ way ih =>
    rw [scatter_succ, getElem?_putWord _ _ _ (by rwa [size_scatter]), dif_neg (h way (by omega))]
    exact ih x.pop fun i hi => h i (by omega)

/-- Of the lanes that cover a byte, the last one gives it. -/
theorem getElem?_scatter_of_last (order : ByteOrder) {way : Nat} (s : Span) (x : Vector UInt32 way)
    (buf : Bytes) {i k : Nat} (hi : i < way) (hk : k < 4) (hp : s.address i + k < buf.size)
    (hlast : ∀ m, i < m → m < way → ¬ s.Covers m (s.address i + k)) :
    (scatter order s x buf)[s.address i + k]? = some (order.write x[i])[k] := by
  induction way with
  | zero => omega
  | succ way ih =>
    rw [scatter_succ, getElem?_putWord _ _ _ (by rwa [size_scatter])]
    by_cases h : i = way
    · subst h
      rw [dif_pos (by omega)]
      simp only [Nat.add_sub_cancel_left]
    · rw [dif_neg (hlast way (by omega) (by omega)),
        ih x.pop (by omega) fun m hm hw => hlast m hm (by omega)]
      rw [Vector.getElem_pop]

/-- A save inside a buffer scatters the group's words over it. -/
theorem LaneUnit.save_of_inside (hw : 0 < u.way) (order : ByteOrder) (x : u.Group) {s : Span}
    {buf : Bytes} (hs : s.Inside u.way buf.size) (hb : Addressable buf) :
    u.save order x s buf = .ok (scatter order s (u.toLanes x) buf) :=
  if_pos (LaneUnit.admits_of_inside hw hs hb)

end ProofOfWork.Lanes

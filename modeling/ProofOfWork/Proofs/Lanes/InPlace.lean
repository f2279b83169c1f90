import ProofOfWork.Proofs.Lanes.Buffer
import ProofOfWork.Proofs.Traversal

/-!
# ProofOfWork.Proofs.Lanes.InPlace — loads and saves word after word

On a machine a save writes one word after the other over the buffer, at positions that wrap around,
and a word outside stops it with the earlier ones written.  The check of the whole span comes first
and is exact: once it has passed, every position is the one that is meant and every word is inside
(`run_writeLanes`), and where it fails nothing has been written.  The plain unit checks nothing but
has one word to write.
-/

namespace ProofOfWork.Lanes

/-! ### Positions -/

/-- A span in machine words. -/
structure MachineSpan where
  stride : UInt64
  offset : UInt64
deriving DecidableEq, Repr

namespace MachineSpan

def span (m : MachineSpan) : Span := ⟨m.stride.toNat, m.offset.toNat⟩

/-- Where lane `i` stands, modulo the size of a word. -/
def address (m : MachineSpan) (i : Nat) : UInt64 := m.offset + i.toUInt64 * m.stride

theorem toNat_address (m : MachineSpan) (i : Nat) :
    (m.address i).toNat = m.span.address i % UInt64.size := by
  simp [address, span, Span.address, UInt64.size]

theorem address_zero (m : MachineSpan) : m.address 0 = m.offset := by
  simp [address]

end MachineSpan

/-- The word at a position is inside a buffer: its end does not wrap around and is inside. -/
def WordInside (pos : UInt64) (len : Nat) : Prop := pos ≤ pos + 4 ∧ (pos + 4).toNat ≤ len

instance (pos : UInt64) (len : Nat) : Decidable (WordInside pos len) :=
  inferInstanceAs (Decidable (_ ∧ _))

theorem WordInside.end_le {pos : UInt64} {len : Nat} (h : WordInside pos len) :
    pos.toNat + 4 ≤ len := by
  obtain ⟨hwrap, hend⟩ := h
  have hpos := pos.toNat_lt
  rw [UInt64.le_iff_toNat_le] at hwrap
  simp only [UInt64.toNat_add, UInt64.reduceToNat] at hwrap hend
  omega

theorem toNat_wordEnd {pos : UInt64} {len : Nat} (hl : len < UInt64.size)
    (h : pos.toNat + 4 ≤ len) : (pos + 4).toNat = pos.toNat + 4 := by
  unfold UInt64.size at hl
  simp only [UInt64.toNat_add, UInt64.reduceToNat]
  omega

theorem wordInside_iff {pos : UInt64} {len : Nat} (hl : len < UInt64.size) :
    WordInside pos len ↔ pos.toNat + 4 ≤ len := by
  refine ⟨WordInside.end_le, fun h => ⟨?_, ?_⟩⟩
  · rw [UInt64.le_iff_toNat_le, toNat_wordEnd hl h]
    omega
  · rwa [toNat_wordEnd hl h]

/-! ### Accesses -/

/-- Accesses to a buffer, one after the other.  A run stops at the first that is refused, and what was
written before stays written. -/
abbrev OnBuffer := EStateM LaneError Bytes

def readWord (order : ByteOrder) (pos : UInt64) : OnBuffer UInt32 := fun buf =>
  if h : WordInside pos buf.size then
    .ok (order.read (slice buf.toVector pos.toNat 4 h.end_le)) buf
  else .error .outOfRange buf

def writeWord (order : ByteOrder) (pos : UInt64) (w : UInt32) : OnBuffer Unit := fun buf =>
  if WordInside pos buf.size then .ok () (putWord buf pos.toNat (order.write w))
  else .error .outOfRange buf

def readLanes (order : ByteOrder) (m : MachineSpan) : (way : Nat) → OnBuffer (Vector UInt32 way)
  | 0 => pure #v[]
  | way + 1 => do
    let front ← readLanes order m way
    let last ← readWord order (m.address way)
    return front.push last

def writeLanes (order : ByteOrder) (m : MachineSpan) :
    {way : Nat} → Vector UInt32 way → OnBuffer Unit
  | 0, _ => pure ()
  | way + 1, x => do
    writeLanes order m x.pop
    writeWord order (m.address way) x[way]

variable (u : LaneUnit)

/-- The check of a whole span, if the unit makes one. -/
def checkSpan (s : Span) : OnBuffer Unit := fun buf =>
  if u.guarded && !s.fits u.way buf.size then .error (.tooSmall u.way s buf.size) buf
  else .ok () buf

def loadInPlace (order : ByteOrder) (m : MachineSpan) : OnBuffer u.Group := do
  checkSpan u m.span
  return u.ofLanes (← readLanes order m u.way)

def saveInPlace (order : ByteOrder) (x : u.Group) (m : MachineSpan) : OnBuffer Unit := do
  checkSpan u m.span
  writeLanes order m (u.toLanes x)

/-! ### Inside the buffer -/

section Inside

variable {m : MachineSpan} {buf : Bytes} (hb : Addressable buf)
include hb

/-- No position inside a buffer is too big for a machine word. -/
theorem toNat_address_of_le {i : Nat} (h : m.span.address i + 4 ≤ buf.size) :
    (m.address i).toNat = m.span.address i := by
  unfold Addressable at hb
  rw [MachineSpan.toNat_address]
  exact Nat.mod_eq_of_lt (by omega)

theorem wordInside_of_le {i : Nat} (h : m.span.address i + 4 ≤ buf.size) :
    WordInside (m.address i) buf.size := by
  rwa [wordInside_iff hb, toNat_address_of_le hb h]

theorem run_readWord (order : ByteOrder) {i : Nat} (h : m.span.address i + 4 ≤ buf.size) :
    (readWord order (m.address i)).run buf
      = .ok (order.read (slice buf.toVector (m.span.address i) 4 h)) buf := by
  have haddress := toNat_address_of_le hb h
  refine (dif_pos (wordInside_of_le hb h)).trans ?_
  simp only [haddress]

theorem run_writeWord (order : ByteOrder) (w : UInt32) {i : Nat}
    (h : m.span.address i + 4 ≤ buf.size) : (writeWord order (m.address i) w).run buf
      = .ok () (putWord buf (m.span.address i) (order.write w)) := by
  refine (if_pos (wordInside_of_le hb h)).trans ?_
  rw [toNat_address_of_le hb h]

theorem run_readLanes (order : ByteOrder) {way : Nat} (hs : m.span.Inside way buf.size) :
    (readLanes order m way).run buf = .ok (gather order m.span buf hs) buf := by
  induction way with
  | zero => rfl
  | succ way ih =>
    have hfront : m.span.Inside way buf.size := fun i hi => hs i (Nat.lt_succ_of_lt hi)
    have hlast := hs way (Nat.lt_succ_self way)
    rw [readLanes, run_bind_of_ok (ih hfront), run_bind_of_ok (run_readWord hb order hlast),
      gather_succ order hs hfront]
    rfl

/-- The words that are written do not change the buffer's length, so that the later ones are inside
as they were before. -/
theorem run_writeLanes (order : ByteOrder) {way : Nat} (x : Vector UInt32 way)
    (hs : m.span.Inside way buf.size) :
    (writeLanes order m x).run buf = .ok () (scatter order m.span x buf) := by
  induction way with
  | zero => rfl
  | succ way ih =>
    have hfront : m.span.Inside way buf.size := fun i hi => hs i (Nat.lt_succ_of_lt hi)
    have hsize := size_scatter order m.span x.pop buf
    have hlast : m.span.address way + 4 ≤ (scatter order m.span x.pop buf).size := by
      rw [hsize]
      exact hs way (Nat.lt_succ_self way)
    have hb' : Addressable (scatter order m.span x.pop buf) := by rwa [Addressable, hsize]
    rw [writeLanes, run_bind_of_ok (ih x.pop hfront), run_writeWord hb' order _ hlast, scatter_succ]

end Inside

/-! ### All or nothing -/

/-- A unit that checks no span has one word. -/
theorem Backend.guarded_or_one (b : Backend) : b.unit.guarded = true ∨ b.unit.way = 1 := by
  cases b with
  | scalar => exact .inr rfl
  | swar2 => exact .inl rfl
  | soft way pos => exact .inl rfl
  | sse2 => exact .inl rfl
  | avx2 => exact .inl rfl

section One

variable {m : MachineSpan} {way : Nat} {buf : Bytes} (hone : way = 1)
  (hout : ¬ WordInside (m.address 0) buf.size)
include hone hout

/-- A single word that is not inside the buffer is not read. -/
theorem run_readLanes_one (order : ByteOrder) :
    (readLanes order m way).run buf = .error .outOfRange buf := by
  subst hone
  have hstop : (readWord order (m.address 0)).run buf = .error .outOfRange buf := dif_neg hout
  rw [readLanes, run_bind_of_ok (show (readLanes order m 0).run buf = .ok #v[] buf from rfl)]
  exact run_bind_of_error hstop

/-- A single word that is not inside the buffer is not written, not even in part. -/
theorem run_writeLanes_one (order : ByteOrder) (x : Vector UInt32 way) :
    (writeLanes order m x).run buf = .error .outOfRange buf := by
  subst hone
  have hstop : (writeWord order (m.address 0) x[0]).run buf = .error .outOfRange buf := if_neg hout
  rw [writeLanes, run_bind_of_ok (show (writeLanes order m x.pop).run buf = .ok () buf from rfl)]
  exact hstop

end One

section Atomic

variable {u} (hw : 0 < u.way) {m : MachineSpan} {buf : Bytes} (hb : Addressable buf)
include hw hb

theorem run_checkSpan_of_inside (hs : m.span.Inside u.way buf.size) :
    (checkSpan u m.span).run buf = .ok () buf := by
  refine if_neg ?_
  rw [Span.fits_of_inside hw hs hb, Bool.not_true, Bool.and_false]
  exact Bool.false_ne_true

/-- Outside, either the check stops the run or there is a single word, and that one is outside. -/
theorem checkSpan_cases (hg : u.guarded = true ∨ u.way = 1)
    (hs : ¬ m.span.Inside u.way buf.size) :
    (checkSpan u m.span).run buf = .error (u.spanError m.span buf.size) buf ∨
    ((checkSpan u m.span).run buf = .ok () buf ∧ u.spanError m.span buf.size = .outOfRange ∧
      u.way = 1 ∧ ¬ WordInside (m.address 0) buf.size) := by
  rw [Span.inside_iff hw] at hs
  have hfits : m.span.fits u.way buf.size = false := by
    rwa [← Span.fits_iff hb, Bool.not_eq_true] at hs
  unfold checkSpan LaneUnit.spanError
  cases hguarded : u.guarded with
  | true =>
    left
    simp [EStateM.run, hfits]
  | false =>
    have hone : u.way = 1 := hg.resolve_left (by simp [hguarded])
    refine .inr ⟨rfl, rfl, hone, fun hword => hs ?_⟩
    have hend := hword.end_le
    rw [MachineSpan.address_zero] at hend
    rw [hone, Span.address, Nat.sub_self, Nat.zero_mul]
    exact hend

variable (hg : u.guarded = true ∨ u.way = 1) (order : ByteOrder)
include hg

/-- A load in place has the outcome of the load. -/
theorem run_loadInPlace : (loadInPlace u order m).run buf
    = allOrNothing buf ((u.load order m.span buf).map fun x => (x, buf)) := by
  unfold loadInPlace
  by_cases hs : m.span.Inside u.way buf.size
  · have hload : u.load order m.span buf = .ok (u.ofLanes (gather order m.span buf hs)) :=
      dif_pos (LaneUnit.admits_of_inside hw hs hb)
    rw [run_bind_of_ok (run_checkSpan_of_inside hw hb hs),
      run_bind_of_ok (run_readLanes hb order hs), hload]
    rfl
  · have hload : u.load order m.span buf = .error (u.spanError m.span buf.size) :=
      dif_neg fun h => hs h.2
    rw [hload]
    obtain hstop | ⟨hpass, herror, hone, hout⟩ := checkSpan_cases hw hb hg hs
    · rw [run_bind_of_error hstop]
      rfl
    · rw [run_bind_of_ok hpass, run_bind_of_error (run_readLanes_one hone hout order), herror]
      rfl

/-- A save in place has the outcome of the save, and one that fails has written nothing. -/
theorem run_saveInPlace (x : u.Group) : (saveInPlace u order x m).run buf
    = allOrNothing buf ((u.save order x m.span buf).map fun after => ((), after)) := by
  unfold saveInPlace
  by_cases hs : m.span.Inside u.way buf.size
  · rw [run_bind_of_ok (run_checkSpan_of_inside hw hb hs), run_writeLanes hb order _ hs,
      LaneUnit.save_of_inside hw order x hs hb]
    rfl
  · have hsave : u.save order x m.span buf = .error (u.spanError m.span buf.size) :=
      if_neg fun h => hs h.2
    rw [hsave]
    obtain hstop | ⟨hpass, herror, hone, hout⟩ := checkSpan_cases hw hb hg hs
    · rw [run_bind_of_error hstop]
      rfl
    · rw [run_bind_of_ok hpass, run_writeLanes_one hone hout, herror]
      rfl

end Atomic

/-! ### The check is exact -/

section Exact

variable {u} (hw : 0 < u.way) (order : ByteOrder) {s : Span} {buf : Bytes} (hb : Addressable buf)
include hw hb

theorem load_eq_error_iff :
    (∃ e, u.load order s buf = .error e) ↔ buf.size < s.address (u.way - 1) + 4 := by
  rw [← Nat.not_le, ← LaneUnit.admits_iff hw hb, LaneUnit.load]
  by_cases h : u.Admits s buf.size
  · simp [h]
  · simp [h]

theorem save_eq_error_iff (x : u.Group) :
    (∃ e, u.save order x s buf = .error e) ↔ buf.size < s.address (u.way - 1) + 4 := by
  rw [← Nat.not_le, ← LaneUnit.admits_iff hw hb, LaneUnit.save]
  by_cases h : u.Admits s buf.size
  · simp [h]
  · simp [h]

end Exact

/-- Loads and saves fail exactly where the last lane ends outside the buffer, the sum taken without a
bound; for the plain unit the stride has no part in it.  Where they do not fail no position and no
end of a word wraps around, and every word is inside.  Done in place, word after word and after the
check of the span, both have the same outcome, and one that fails has left every byte as it was. -/
theorem span_check_exact (b : Backend) (order : ByteOrder) (m : MachineSpan) {buf : Bytes}
    (hb : Addressable buf) :
    ((∃ e, b.unit.load order m.span buf = .error e) ↔
      buf.size < m.offset.toNat + (b.unit.way - 1) * m.stride.toNat + 4) ∧
    (∀ x, (∃ e, b.unit.save order x m.span buf = .error e) ↔
      buf.size < m.offset.toNat + (b.unit.way - 1) * m.stride.toNat + 4) ∧
    ((∃ e, scalarUnit.load order m.span buf = .error e) ↔ buf.size < m.offset.toNat + 4) ∧
    (∀ x, (∃ e, scalarUnit.save order x m.span buf = .error e) ↔
      buf.size < m.offset.toNat + 4) ∧
    (m.offset.toNat + (b.unit.way - 1) * m.stride.toNat + 4 ≤ buf.size → ∀ i < b.unit.way,
      (m.address i).toNat = m.offset.toNat + i * m.stride.toNat ∧
      (m.address i + 4).toNat = m.offset.toNat + i * m.stride.toNat + 4 ∧
      m.offset.toNat + i * m.stride.toNat + 4 ≤ buf.size) ∧
    (loadInPlace b.unit order m).run buf
      = allOrNothing buf ((b.unit.load order m.span buf).map fun x => (x, buf)) ∧
    ∀ x, (saveInPlace b.unit order x m).run buf
      = allOrNothing buf ((b.unit.save order x m.span buf).map fun after => ((), after)) := by
  have hw := b.lanewise.way_pos
  have hg := b.guarded_or_one
  have hplain : m.span.address (scalarUnit.way - 1) = m.offset.toNat :=
    congrArg (m.offset.toNat + ·) (Nat.zero_mul _)
  have hone := scalarUnit_lanewise.way_pos
  refine ⟨load_eq_error_iff hw order hb, save_eq_error_iff hw order hb, ?_, fun x => ?_,
    fun hlast i hi => ?_, run_loadInPlace hw hb hg order, run_saveInPlace hw hb hg order⟩
  · rw [load_eq_error_iff hone order hb, hplain]
  · rw [save_eq_error_iff hone order hb, hplain]
  · have hin : m.span.address i + 4 ≤ buf.size := (Span.inside_iff hw).mpr hlast i hi
    have haddress := toNat_address_of_le hb hin
    refine ⟨haddress, ?_, hin⟩
    rw [toNat_wordEnd hb (haddress ▸ hin), haddress]
    rfl

/-- Four registers at a stride of a third of the positions there are, so that the last lane would be
back at the front; and one word whose end would be. -/
theorem span_check_exact_wrapping :
    let buf : Bytes := Array.replicate 16 0xaa
    let third : MachineSpan := ⟨0x5555555555555555, 3⟩
    let top : MachineSpan := ⟨0, 0xfffffffffffffffe⟩
    let x : Vector UInt32 4 := #v[1, 2, 3, 4]
    Addressable buf ∧ third.address 3 = 2 ∧ top.address 0 + 4 = 2 ∧
      (∃ e, (loadInPlace Backend.sse2.unit .little third).run buf = .error e buf) ∧
      (∃ e, (saveInPlace Backend.sse2.unit .little x third).run buf = .error e buf) ∧
      (∃ e, (saveInPlace Backend.scalar.unit .little (7 : UInt32) top).run buf = .error e buf) ∧
      ((⟨4, 0⟩ : MachineSpan).address 3 + 4).toNat = 16 := by
  intro buf third top x
  have hsize : buf.size = 16 := Array.size_replicate
  have hb : Addressable buf := by
    rw [Addressable, hsize, UInt64.size]
    omega
  have hthird : buf.size < 3 + (4 - 1) * 0x5555555555555555 + 4 := by
    rw [hsize]
    omega
  have htop : buf.size < 0xfffffffffffffffe + 4 := by
    rw [hsize]
    omega
  obtain ⟨hload, hsave, -, -, -, hloaded, hsaved⟩ := span_check_exact .sse2 .little third hb
  obtain ⟨-, hone, -, -, -, -, hwritten⟩ := span_check_exact .scalar .little top hb
  obtain ⟨-, -, -, -, hplain, -⟩ := span_check_exact .sse2 .little ⟨4, 0⟩ hb
  obtain ⟨e, he⟩ := hload.mpr hthird
  obtain ⟨e', he'⟩ := (hsave x).mpr hthird
  obtain ⟨e'', he''⟩ := (hone (7 : UInt32)).mpr htop
  refine ⟨hb, by decide, by decide, ⟨e, ?_⟩, ⟨e', ?_⟩, ⟨e'', ?_⟩, ?_⟩
  · rw [hloaded, he]
    rfl
  · refine (hsaved x).trans ?_
    rw [he']
    rfl
  · refine (hwritten (7 : UInt32)).trans ?_
    rw [he'']
    rfl
  · exact (hplain (Nat.le_of_eq hsize.symm) 3 (by decide)).2.1

end ProofOfWork.Lanes

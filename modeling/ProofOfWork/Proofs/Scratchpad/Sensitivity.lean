import ProofOfWork.Proofs.Aes.Decrypt
import ProofOfWork.Proofs.Scratchpad.ClosedForm

/-!
# ProofOfWork.Proofs.Scratchpad.Sensitivity — no line that is folded is lost

A pseudo-round can be undone under any keys, so that what enters a column's fold, be it the line it
starts from or a line of the pad, is never made up for by what comes after it
(`columnFold_injective`, `columnFold_ne`).  Two pads that differ in one line of a column therefore
fold into different states, and the difference is all in that column's line of the text.
-/

namespace ProofOfWork.Scratchpad

variable {n : Nat}

/-! ### One column -/

section Column

variable (keys : Aes.RoundKeys) {i : Fin 8}

theorem columnFold_injective (pad : Scratchpad n) {c : Nat} (hc : c ≤ n / 8) :
    Function.Injective (columnFold keys pad i c hc) := by
  induction c with
  | zero => exact Function.injective_id
  | succ c ih =>
    intro x y h
    rw [columnFold_succ, columnFold_succ] at h
    exact ih (Nat.le_of_succ_le hc) (Line.xor_right_cancel (Aes.pseudoRound_injective keys h))

/-- Where two pads differ in one line of a column, so do all folds that go past it. -/
theorem columnFold_ne {pad pad' : Scratchpad n} {c m : Nat} (hm : m ≤ n / 8) (hcm : c < m)
    (hline : pad.get ⟨8 * c + i.val, columnLine_lt hcm hm⟩
      ≠ pad'.get ⟨8 * c + i.val, columnLine_lt hcm hm⟩)
    (hsame : ∀ j (hj : j < m), j ≠ c → pad.get ⟨8 * j + i.val, columnLine_lt hj hm⟩
      = pad'.get ⟨8 * j + i.val, columnLine_lt hj hm⟩) (x : Line) :
    columnFold keys pad i m hm x ≠ columnFold keys pad' i m hm x := by
  induction m with
  | zero => exact absurd hcm (Nat.not_lt_zero c)
  | succ m ih =>
    intro h
    rw [columnFold_succ, columnFold_succ] at h
    have hsum := Aes.pseudoRound_injective keys h
    by_cases hlast : c = m
    · -- up to here the folds agree, and the differing line comes in last
      subst hlast
      rw [columnFold_congr (Nat.le_of_succ_le hm) fun j hj =>
        hsame j (Nat.lt_succ_of_lt hj) (Nat.ne_of_lt hj)] at hsum
      exact hline (Line.xor_left_cancel hsum)
    · -- the differing line came in before, and the last one is the same in both
      have hcm' : c < m := by omega
      have hsameLast : pad[8 * m + i.val] = pad'[8 * m + i.val] :=
        hsame m (Nat.lt_succ_self m) (Ne.symm hlast)
      rw [hsameLast] at hsum
      exact ih (Nat.le_of_succ_le hm) hcm' hline
        (fun j hj => hsame j (Nat.lt_succ_of_lt hj)) (Line.xor_right_cancel hsum)

end Column

/-! ### The state -/

section State

variable {b b' : Vector UInt8 200} {pad pad' : Scratchpad n}

theorem column_lines {k : Nat} (hk : k < 8 * (n / 8)) : k / 8 < n / 8 := by omega

/-- Where two pads differ in one line that is folded, the text differs in its column's line. -/
theorem textLine_implodeBytes_ne {k : Fin n} (hk : k.val < 8 * (n / 8))
    (hline : pad.get k ≠ pad'.get k) (hsame : ∀ j, j ≠ k → pad.get j = pad'.get j)
    (b : Vector UInt8 200) : textLine (implodeBytes b pad) ⟨k.val % 8, column_lt k⟩
      ≠ textLine (implodeBytes b pad') ⟨k.val % 8, column_lt k⟩ := by
  have hplace (h : 8 * (k.val / 8) + k.val % 8 < n) : (⟨_, h⟩ : Fin n) = k :=
    Fin.ext (Nat.div_add_mod k.val 8)
  rw [textLine_implodeBytes, textLine_implodeBytes]
  refine columnFold_ne _ (Nat.le_refl _) (column_lines hk) ?_ (fun j hj hjk => hsame _ ?_) _
  · simpa only [hplace] using hline
  · intro h
    have hval : 8 * j + k.val % 8 = k.val := congrArg Fin.val h
    omega

/-- The other columns are folded as before. -/
theorem textLine_implodeBytes_other {k : Fin n} (hsame : ∀ j, j ≠ k → pad.get j = pad'.get j)
    {i : Fin 8} (hi : i.val ≠ k.val % 8) (b : Vector UInt8 200) :
    textLine (implodeBytes b pad) i = textLine (implodeBytes b pad') i := by
  rw [textLine_implodeBytes, textLine_implodeBytes]
  refine columnFold_congr (Nat.le_refl _) (fun j hj => hsame _ ?_) _
  intro h
  have hval : 8 * j + i.val = k.val := congrArg Fin.val h
  omega

theorem getElem_implodeBytes_other {k : Fin n} (hsame : ∀ j, j ≠ k → pad.get j = pad'.get j)
    {p : Nat} (hp : p < 200)
    (hout : ¬ (64 + 16 * (k.val % 8) ≤ p ∧ p < 64 + 16 * (k.val % 8) + 16)) :
    (implodeBytes b pad)[p] = (implodeBytes b pad')[p] := by
  by_cases hrest : p < 64 ∨ 192 ≤ p
  · rw [getElem_implodeBytes_outside b pad hp hrest, getElem_implodeBytes_outside b pad' hp hrest]
  · obtain ⟨i, m, hm, rfl⟩ := exists_textPlace hrest
    have hi : i.val ≠ k.val % 8 := by omega
    exact textLine_eq_iff.mp (textLine_implodeBytes_other hsame hi b) m hp hm

/-- The key of folding is bytes 32 to 63. -/
theorem foldKeys_congr (h : ∀ p : Fin 200, 32 ≤ p.val → p.val < 64 → b.get p = b'.get p) :
    foldKeys (Keccak.ofBytes b) = foldKeys (Keccak.ofBytes b') := by
  have hkey : slice b 32 32 foldKey_le = slice b' 32 32 foldKey_le := by
    apply Vector.ext
    intro j hj
    rw [getElem_slice, getElem_slice]
    exact h ⟨32 + j, by omega⟩ (Nat.le_add_right 32 j) (by simp only; omega)
  rw [← Option.some_inj, ← foldKeys_ofBytes, hkey, foldKeys_ofBytes]

/-- Under one key, a pad folds no two texts into one. -/
theorem textLine_implodeBytes_eq_iff
    (hkey : ∀ p : Fin 200, 32 ≤ p.val → p.val < 64 → b.get p = b'.get p) {i : Fin 8} :
    textLine (implodeBytes b pad) i = textLine (implodeBytes b' pad) i
      ↔ textLine b i = textLine b' i := by
  rw [textLine_implodeBytes, textLine_implodeBytes, foldKeys_congr hkey]
  exact (columnFold_injective _ pad (Nat.le_refl _)).eq_iff

end State

/-- Folding loses no line of the pad and no byte of the text.  Two pads that differ in one line fold
into states that differ, and within the line of the text that belongs to the pad's line, unless the
line is after the last full group; then they fold into the same state.  With one pad and one key, two
states with different texts fold into states with different texts. -/
theorem folding_sensitive (b : Vector UInt8 200) :
    (∀ (n : Nat) (pad pad' : Scratchpad n) (k : Fin n), pad.get k ≠ pad'.get k →
      (∀ j, j ≠ k → pad.get j = pad'.get j) →
      (k.val < 8 * (n / 8) → implodeBytes b pad ≠ implodeBytes b pad' ∧
        ∀ p : Fin 200, (implodeBytes b pad).get p ≠ (implodeBytes b pad').get p →
          64 + 16 * (k.val % 8) ≤ p.val ∧ p.val < 64 + 16 * (k.val % 8) + 16) ∧
      (8 * (n / 8) ≤ k.val → implodeBytes b pad = implodeBytes b pad')) ∧
    ∀ (n : Nat) (pad : Scratchpad n) (b' : Vector UInt8 200),
      (∀ p : Fin 200, 32 ≤ p.val → p.val < 64 → b.get p = b'.get p) →
      (∀ p : Fin 200, 64 ≤ p.val → p.val < 192 →
        (implodeBytes b pad).get p = (implodeBytes b' pad).get p) →
      ∀ p : Fin 200, 64 ≤ p.val → p.val < 192 → b.get p = b'.get p := by
  refine ⟨fun n pad pad' k hline hsame => ⟨fun hk => ⟨?_, ?_⟩, fun hk => ?_⟩, ?_⟩
  · intro h
    exact textLine_implodeBytes_ne hk hline hsame b (by rw [h])
  · intro p hp
    by_contra hout
    exact hp (getElem_implodeBytes_other hsame p.isLt hout)
  · refine implodeBytes_congr (fun j hj => hsame _ ?_) b
    intro h
    have hval : j = k.val := congrArg Fin.val h
    omega
  · intro n pad b' hkey htext
    refine text_eq_iff.mp fun i => ?_
    exact (textLine_implodeBytes_eq_iff hkey).mp (text_eq_iff.mpr htext i)

/-- Pads of nine lines that differ in line 3 or in line 8, and states that differ in byte 0. -/
theorem folding_sensitive_nine :
    let b : Vector UInt8 200 := Vector.replicate 200 1
    let other : Vector UInt8 200 := Vector.ofFn fun p => if p.val = 0 then 2 else 1
    let pad : Scratchpad 9 := Vector.replicate 9 Line.zero
    let changed : Scratchpad 9 := Vector.ofFn fun k => if k.val = 3 then ⟨1, 0⟩ else Line.zero
    let longer : Scratchpad 9 := Vector.ofFn fun k => if k.val = 8 then ⟨1, 0⟩ else Line.zero
    (implodeBytes b pad ≠ implodeBytes b changed ∧
      ∀ p : Fin 200, (implodeBytes b pad).get p ≠ (implodeBytes b changed).get p →
        112 ≤ p.val ∧ p.val < 128) ∧
      implodeBytes b pad = implodeBytes b longer ∧
      b ≠ other ∧ ∀ p : Fin 200, 64 ≤ p.val → p.val < 192 → b.get p = other.get p := by
  intro b other pad changed longer
  obtain ⟨hpads, htext⟩ := folding_sensitive b
  have hkept (p : Fin 200) (hp : p.val ≠ 0) : b.get p = other.get p := by
    change b[p.val] = other[p.val]
    simp only [b, other, Vector.getElem_replicate, Vector.getElem_ofFn, if_neg hp]
  have hother : b ≠ other := by
    intro h
    have hbyte : b[0] = other[0] := by rw [h]
    simp only [b, other, Vector.getElem_replicate, Vector.getElem_ofFn] at hbyte
    exact absurd hbyte (by decide)
  have hkey (p : Fin 200) (hlo : 32 ≤ p.val) (_ : p.val < 64) : b.get p = other.get p :=
    hkept p (by omega)
  have hfolded : ∀ p : Fin 200, 64 ≤ p.val → p.val < 192 →
      (implodeBytes b pad).get p = (implodeBytes other pad).get p := by
    refine text_eq_iff.mp fun i => (textLine_implodeBytes_eq_iff hkey).mpr ?_
    exact text_eq_iff.mpr (fun p hlo _ => hkept p (by omega)) i
  exact ⟨(hpads 9 pad changed ⟨3, by decide⟩ (by decide) (by decide)).1 (by decide),
    (hpads 9 pad longer ⟨8, by decide⟩ (by decide) (by decide)).2 (by decide), hother,
    htext 9 pad other hkey hfolded⟩

end ProofOfWork.Scratchpad

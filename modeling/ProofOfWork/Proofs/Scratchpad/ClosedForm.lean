import ProofOfWork.Proofs.Scratchpad
import ProofOfWork.Proofs.StateBytes

/-!
# ProofOfWork.Proofs.Scratchpad.ClosedForm — filling and folding, seen on the 200 bytes of a state

The state that a pad is filled from and folded into is taken as its bytes here.  Bytes 64 to 191 are
the eight lines of the text and the 64 bytes before them two keys.  What a pad holds after filling
is a line of the text after a number of pseudo-rounds, and what folding leaves in a line of the text
is the fold of one column of the pad; everything else stays.
-/

namespace ProofOfWork.Scratchpad

variable {n : Nat}

/-! ### The parts of a state -/

theorem fillKey_le : 0 + 32 ≤ 200 := by decide

theorem foldKey_le : 32 + 32 ≤ 200 := by decide

theorem text_le (i : Fin 8) : 64 + 16 * i.val + 16 ≤ 200 := by omega

/-- Line `i` of the text. -/
def textLine (b : Vector UInt8 200) (i : Fin 8) : Line :=
  Line.ofBytes (slice b (64 + 16 * i.val) 16 (text_le i))

theorem exists_textPlace {p : Nat} (h : ¬ (p < 64 ∨ 192 ≤ p)) :
    ∃ (i : Fin 8) (m : Nat), m < 16 ∧ p = 64 + 16 * i.val + m :=
  ⟨⟨(p - 64) / 16, by omega⟩, (p - 64) % 16, by omega, by simp only; omega⟩

/-- A line of the text is its sixteen bytes. -/
theorem textLine_eq_iff {b b' : Vector UInt8 200} {i : Fin 8} : textLine b i = textLine b' i ↔
    ∀ m (hp : 64 + 16 * i.val + m < 200), m < 16 →
      b[64 + 16 * i.val + m] = b'[64 + 16 * i.val + m] := by
  constructor
  · intro h m hp hm
    have hbytes := congrArg Line.bytes h
    rw [textLine, textLine, Line.bytes_ofBytes, Line.bytes_ofBytes] at hbytes
    rw [← getElem_slice b (text_le i) hm, ← getElem_slice b' (text_le i) hm, hbytes]
  · intro h
    refine congrArg Line.ofBytes (Vector.ext fun m hm => ?_)
    rw [getElem_slice, getElem_slice]
    exact h m _ hm

/-- The lines of the text are bytes 64 to 191. -/
theorem text_eq_iff {b b' : Vector UInt8 200} : (∀ i, textLine b i = textLine b' i) ↔
    ∀ p : Fin 200, 64 ≤ p.val → p.val < 192 → b.get p = b'.get p := by
  constructor
  · rintro h ⟨p, hp⟩ hlo hhi
    obtain ⟨i, m, hm, rfl⟩ := exists_textPlace (p := p) (by simp only at hlo hhi; omega)
    exact textLine_eq_iff.mp (h i) m hp hm
  · intro h i
    have hi := i.isLt
    exact textLine_eq_iff.mpr fun m hp hm => h ⟨_, hp⟩ (by simp only; omega) (by simp only; omega)

/-- Bytes with the same text lines and the same bytes around the text are the same. -/
theorem eq_of_parts {b b' : Vector UInt8 200} (htext : ∀ i, textLine b i = textLine b' i)
    (hrest : ∀ p (hp : p < 200), p < 64 ∨ 192 ≤ p → b[p] = b'[p]) : b = b' := by
  apply Vector.ext
  intro p hp
  by_cases h : p < 64 ∨ 192 ≤ p
  · exact hrest p hp h
  · obtain ⟨i, m, hm, rfl⟩ := exists_textPlace h
    exact textLine_eq_iff.mp (htext i) m hp hm

theorem get_text (s : Keccak.State) (i : Fin 8) :
    (text s).get i = textLine (Keccak.toBytes s) i := by
  have hi := i.isLt
  change (text s)[i.val] = _
  rw [text, Vector.getElem_ofFn]
  exact Keccak.line_eq s _ (by change _ = 16 * (4 + i.val); omega) (text_le i)

theorem fillKeys_ofBytes (b : Vector UInt8 200) :
    Aes.roundKeys? (slice b 0 32 fillKey_le).toArray = some (fillKeys (Keccak.ofBytes b)) := by
  rw [Aes.roundKeys?_toArray _ (by decide) (by decide), slice_slice _ _ _ (by decide),
    slice_slice _ _ _ (by decide), fillKeys, Keccak.line_ofBytes b 0 (p := 0) rfl (by decide),
    Keccak.line_ofBytes b 1 (p := 16) rfl (by decide)]

theorem foldKeys_ofBytes (b : Vector UInt8 200) :
    Aes.roundKeys? (slice b 32 32 foldKey_le).toArray = some (foldKeys (Keccak.ofBytes b)) := by
  rw [Aes.roundKeys?_toArray _ (by decide) (by decide), slice_slice _ _ _ (by decide),
    slice_slice _ _ _ (by decide), foldKeys, Keccak.line_ofBytes b 2 (p := 32) rfl (by decide),
    Keccak.line_ofBytes b 3 (p := 48) rfl (by decide)]

/-! ### Filling -/

theorem get_explode_ofBytes (b : Vector UInt8 200) (pad : Scratchpad n) {k : Nat}
    (hk : k < 8 * (n / 8)) : (explode (Keccak.ofBytes b) pad).get ⟨k, line_lt hk⟩
      = Nat.repeat (Aes.pseudoRound (fillKeys (Keccak.ofBytes b))) (k / 8 + 1)
          (textLine b ⟨k % 8, column_lt k⟩) := by
  have hline := getElem_explode (Keccak.ofBytes b) pad k (line_lt hk)
  rw [if_pos hk, filled, get_text, Keccak.toBytes_ofBytes] at hline
  exact hline

/-! ### Folding -/

section WithText

variable (s : Keccak.State) (t : Vector Line 8)

theorem getElem_withText_inside {i : Nat} (hi : i < 25) (h : 8 ≤ i ∧ i < 24) :
    (withText s t)[i] = if i % 2 = 0 then (t.get ⟨(i - 8) / 2, by omega⟩).lo
      else (t.get ⟨(i - 8) / 2, by omega⟩).hi := by
  rw [withText, Vector.getElem_ofFn, dif_pos h]
  rfl

theorem getElem_withText_outside {i : Nat} (hi : i < 25) (h : ¬ (8 ≤ i ∧ i < 24)) :
    (withText s t)[i] = s[i] := by
  rw [withText, Vector.getElem_ofFn, dif_neg h]
  rfl

theorem get_text_withText (i : Fin 8) : (text (withText s t)).get i = t.get i := by
  have hi := i.isLt
  change (text (withText s t))[i.val] = _
  rw [text, Vector.getElem_ofFn]
  apply Line.ext_halves
  · change (withText s t)[2 * (4 + i.val)] = _
    rw [getElem_withText_inside s t _ (by omega), if_pos (by omega)]
    congr 2
    apply Fin.ext
    change (2 * (4 + i.val) - 8) / 2 = i.val
    omega
  · change (withText s t)[2 * (4 + i.val) + 1] = _
    rw [getElem_withText_inside s t _ (by omega), if_neg (by omega)]
    congr 2
    apply Fin.ext
    change (2 * (4 + i.val) + 1 - 8) / 2 = i.val
    omega

theorem getElem_toBytes_withText {p : Nat} (hp : p < 200) (h : p < 64 ∨ 192 ≤ p) :
    (Keccak.toBytes (withText s t))[p] = (Keccak.toBytes s)[p] := by
  rw [Keccak.toBytes, Keccak.toBytes, bytesOfWords64, bytesOfWords64, Vector.getElem_ofFn,
    Vector.getElem_ofFn]
  simp only [getElem_withText_outside s t (show p / 8 < 25 by omega) (by omega)]

end WithText

/-- The state's bytes after a pad has been folded into it. -/
def implodeBytes (b : Vector UInt8 200) (pad : Scratchpad n) : Vector UInt8 200 :=
  Keccak.toBytes (implode (Keccak.ofBytes b) pad)

theorem textLine_implodeBytes (b : Vector UInt8 200) (pad : Scratchpad n) (i : Fin 8) :
    textLine (implodeBytes b pad) i
      = columnFold (foldKeys (Keccak.ofBytes b)) pad i (n / 8) (Nat.le_refl _) (textLine b i) := by
  rw [implodeBytes, ← get_text, implode, get_text_withText, get_foldLines_all, get_text,
    Keccak.toBytes_ofBytes]

theorem getElem_implodeBytes_outside (b : Vector UInt8 200) (pad : Scratchpad n) {p : Nat}
    (hp : p < 200) (h : p < 64 ∨ 192 ≤ p) : (implodeBytes b pad)[p] = b[p] := by
  rw [implodeBytes, implode, getElem_toBytes_withText _ _ hp h, Keccak.toBytes_ofBytes]

theorem columnLine_lt {c j : Nat} {i : Fin 8} (hj : j < c) (hc : c ≤ n / 8) :
    8 * j + i.val < n := by
  have hi := i.isLt
  omega

/-- A column's fold reads its own lines only. -/
theorem columnFold_congr {keys : Aes.RoundKeys} {pad pad' : Scratchpad n} {i : Fin 8} {c : Nat}
    (hc : c ≤ n / 8) (h : ∀ j (hj : j < c), pad.get ⟨8 * j + i.val, columnLine_lt hj hc⟩
      = pad'.get ⟨8 * j + i.val, columnLine_lt hj hc⟩) (x : Line) :
    columnFold keys pad i c hc x = columnFold keys pad' i c hc x := by
  induction c with
  | zero => rfl
  | succ c ih =>
    have hbefore := ih (Nat.le_of_succ_le hc) fun j hj => h j (Nat.lt_succ_of_lt hj)
    have hlast : pad[8 * c + i.val] = pad'[8 * c + i.val] := h c (Nat.lt_succ_self c)
    rw [columnFold_succ, columnFold_succ, hbefore, hlast]

/-- Lines after the last full group play no part. -/
theorem implodeBytes_congr {pad pad' : Scratchpad n}
    (h : ∀ k (hk : k < 8 * (n / 8)), pad.get ⟨k, line_lt hk⟩ = pad'.get ⟨k, line_lt hk⟩)
    (b : Vector UInt8 200) : implodeBytes b pad = implodeBytes b pad' := by
  apply eq_of_parts
  · intro i
    have hi := i.isLt
    rw [textLine_implodeBytes, textLine_implodeBytes]
    exact columnFold_congr (Nat.le_refl _) (fun j hj => h (8 * j + i.val) (by omega)) _
  · intro p hp hout
    rw [getElem_implodeBytes_outside b pad hp hout, getElem_implodeBytes_outside b pad' hp hout]

/-! ### The closed forms -/

/-- A pad of any length is filled from the 200 bytes of a state, and folded into them, by columns
eight lines apart.  After filling, line `k` of a full group holds line `k % 8` of the text after
`k / 8 + 1` pseudo-rounds under the first key, whatever it held before, and the lines after the last
full group hold what they held; where there are none, nothing is left of the old pad.  Folding only
reads the pad: line `i` of the text takes in the lines of column `i`, with a pseudo-round under the
second key after each, the other bytes of the state stay, and lines after the last full group play
no part. -/
theorem columns_closed_form (b : Vector UInt8 200) :
    (∃ keys, Aes.roundKeys? (slice b 0 32 fillKey_le).toArray = some keys ∧
      ∀ (n : Nat) (pad : Scratchpad n),
        (∀ k (hk : k < 8 * (n / 8)), (explode (Keccak.ofBytes b) pad).get ⟨k, line_lt hk⟩
          = Nat.repeat (Aes.pseudoRound keys) (k / 8 + 1) (textLine b ⟨k % 8, column_lt k⟩)) ∧
        ∀ k : Fin n, 8 * (n / 8) ≤ k.val →
          (explode (Keccak.ofBytes b) pad).get k = pad.get k) ∧
    (∀ n, 8 ∣ n → ∀ pad pad' : Scratchpad n,
      explode (Keccak.ofBytes b) pad = explode (Keccak.ofBytes b) pad') ∧
    (∃ keys, Aes.roundKeys? (slice b 32 32 foldKey_le).toArray = some keys ∧
      ∀ (n : Nat) (pad : Scratchpad n) (i : Fin 8), textLine (implodeBytes b pad) i
        = columnFold keys pad i (n / 8) (Nat.le_refl _) (textLine b i)) ∧
    (∀ (n : Nat) (pad : Scratchpad n) (p : Fin 200), p.val < 64 ∨ 192 ≤ p.val →
      (implodeBytes b pad).get p = b.get p) ∧
    ∀ (n : Nat) (pad pad' : Scratchpad n),
      (∀ k (hk : k < 8 * (n / 8)), pad.get ⟨k, line_lt hk⟩ = pad'.get ⟨k, line_lt hk⟩) →
      implodeBytes b pad = implodeBytes b pad' := by
  refine ⟨⟨_, fillKeys_ofBytes b, fun n pad => ⟨fun k hk => ?_, fun k hk => ?_⟩⟩,
    fun n hn pad pad' => ?_, ⟨_, foldKeys_ofBytes b, fun n pad i => ?_⟩, fun n pad p hp => ?_,
    fun n pad pad' h => implodeBytes_congr h b⟩
  · exact get_explode_ofBytes b pad hk
  · have hline := getElem_explode (Keccak.ofBytes b) pad k.val k.isLt
    rwa [if_neg (Nat.not_lt.mpr hk)] at hline
  · apply Vector.ext
    intro k hk
    have hfull : k < 8 * (n / 8) := by omega
    rw [getElem_explode, getElem_explode, if_pos hfull, if_pos hfull]
  · exact textLine_implodeBytes b pad i
  · exact getElem_implodeBytes_outside b pad p.isLt hp

/-- Nine lines, of which the last is in no full group, and eight that are all overwritten. -/
theorem columns_closed_form_nine :
    let b : Vector UInt8 200 := Vector.ofFn fun i => i.val.toUInt8
    let pad : Scratchpad 9 := Vector.replicate 9 ⟨1, 2⟩
    let longer : Scratchpad 9 := (Vector.replicate 8 ⟨1, 2⟩).push Line.zero
    let stale : Scratchpad 8 := Vector.replicate 8 ⟨1, 2⟩
    (∃ keys, Aes.roundKeys? (slice b 0 32 fillKey_le).toArray = some keys ∧
      ∃ h : 7 < 8 * (9 / 8), (explode (Keccak.ofBytes b) pad).get ⟨7, line_lt h⟩
        = Nat.repeat (Aes.pseudoRound keys) 1 (textLine b ⟨7, column_lt 7⟩)) ∧
      (explode (Keccak.ofBytes b) pad).get (Fin.last 8) = ⟨1, 2⟩ ∧
      explode (Keccak.ofBytes b) stale = explode (Keccak.ofBytes b) (Vector.replicate 8 Line.zero) ∧
      (implodeBytes b pad).get (Fin.last 199) = 199 ∧
      pad ≠ longer ∧ implodeBytes b pad = implodeBytes b longer := by
  intro b pad longer stale
  obtain ⟨⟨keys, hkeys, hfill⟩, hfull, -, hrest, htrailing⟩ := columns_closed_form b
  have hseven : 7 < 8 * (9 / 8) := by decide
  refine ⟨⟨keys, hkeys, hseven, (hfill 9 pad).1 7 hseven⟩, ?_, ?_, ?_, by decide, ?_⟩
  · exact (hfill 9 pad).2 (Fin.last 8) (by decide)
  · exact hfull 8 (by decide) stale _
  · have hlast : b.get (Fin.last 199) = 199 := Vector.getElem_ofFn (Fin.last 199).isLt
    rw [hrest 9 pad (Fin.last 199) (by decide), hlast]
  · refine htrailing 9 pad longer fun k hk => ?_
    have hk8 : k < 8 := by omega
    change pad[k] = longer[k]
    simp only [pad, longer, Vector.getElem_replicate, Vector.getElem_push, dif_pos hk8]

end ProofOfWork.Scratchpad

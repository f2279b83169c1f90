import ProofOfWork.Cryptonight.Hash
import ProofOfWork.Proofs.Aes.Encrypt
import ProofOfWork.Proofs.Aes.KeyAssist
import ProofOfWork.Proofs.Line
import ProofOfWork.Proofs.Scratchpad

/-!
# ProofOfWork.Proofs.Cryptonight.Accelerated — the phases in registers are the plain ones

Phase by phase: the keys are the same words; a round on eight lines side by side is a round on each,
so that the groups fill and fold the pad by the same columns; and the registers of the mixing loop
are those of the plain mixer at every pass (`Registers.ofMixer`), the place to read next being the
lower half of its first line.  Hence the digests of the two paths agree (`accelerated_eq_standard`).
-/

namespace ProofOfWork.Cryptonight

namespace Accelerated

/-! ### Eight lines side by side -/

/-- Rounds on all lines for each key in turn are all rounds on each line in turn. -/
theorem foldl_map_encrypt (keys : List Line) (t : Vector Line 8) :
    keys.foldl (fun t key => t.map fun x => Aes.encrypt x key) t
      = t.map fun x => keys.foldl Aes.round x := by
  induction keys generalizing t with
  | nil => exact (Vector.map_id t).symm
  | cons key keys ih =>
    rw [List.foldl_cons, ih, Vector.map_map]
    apply Vector.ext
    intro i hi
    simp only [Vector.getElem_map, Function.comp_apply, Aes.encrypt_eq_round, List.foldl_cons]

theorem pseudoRounds_eq (keys : Aes.RoundKeys) (t : Vector Line 8) :
    pseudoRounds keys t = t.map (Aes.pseudoRound keys) := by
  have h := foldl_map_encrypt keys.toList t
  simp only [Vector.foldl_toList] at h
  exact h

theorem fillKeys_eq (s : Keccak.State) : fillKeys s = Scratchpad.fillKeys s :=
  Aes.assistedKeys_eq_expandKey _ _

theorem foldKeys_eq (s : Keccak.State) : foldKeys s = Scratchpad.foldKeys s :=
  Aes.assistedKeys_eq_expandKey _ _

/-! ### Filling -/

variable {n : Nat}

theorem getElem_setLines (pad : Scratchpad n) (c : Nat) (h : c < n / 8) (t : Vector Line 8)
    (m : Nat) (hm : m ≤ 8) (k : Nat) (hk : k < n) :
    (Nat.fold m (fun i _ pad => pad.set (8 * c + i) t[i]) pad)[k]
      = if k / 8 = c ∧ k % 8 < m then t[k % 8] else pad[k] := by
  induction m with
  | zero =>
    rw [if_neg (by omega)]
    rfl
  | succ m ih =>
    rw [Nat.fold_succ, Vector.getElem_set, ih (by omega)]
    by_cases hkm : 8 * c + m = k
    · subst hkm
      rw [if_pos rfl, if_pos (by omega)]
      simp only [show (8 * c + m) % 8 = m by omega]
    · have hlt : k / 8 = c ∧ k % 8 < m + 1 ↔ k / 8 = c ∧ k % 8 < m := by omega
      simp only [if_neg hkm, hlt]

theorem getElem_setGroup (pad : Scratchpad n) (c : Nat) (h : c < n / 8) (t : Vector Line 8)
    (k : Nat) (hk : k < n) : (setGroup pad c h t)[k] = if k / 8 = c then t[k % 8] else pad[k] := by
  have h8 : k / 8 = c ∧ k % 8 < 8 ↔ k / 8 = c := by omega
  rw [setGroup, getElem_setLines pad c h t 8 (Nat.le_refl 8) k hk]
  simp only [h8]

/-- After `c` groups the lines side by side have been through `c` pseudo-rounds, and the groups are
filled. -/
theorem fillGroups_run (keys : Aes.RoundKeys) (t : Vector Line 8) (pad : Scratchpad n) (c : Nat)
    (hc : c ≤ n / 8) :
    let p := Nat.fold c (fun c hlt (p : Vector Line 8 × Scratchpad n) =>
      (pseudoRounds keys p.1,
        setGroup p.2 c (Nat.lt_of_lt_of_le hlt hc) (pseudoRounds keys p.1))) (t, pad)
    p.1 = t.map (Nat.repeat (Aes.pseudoRound keys) c) ∧ ∀ (k : Nat) (hk : k < n),
      p.2[k] = if k < 8 * c then Scratchpad.filled keys t k else pad[k] := by
  induction c with
  | zero =>
    refine ⟨(Vector.map_id t).symm, fun k hk => ?_⟩
    rw [if_neg (by omega)]
    rfl
  | succ c ih =>
    have hle : c ≤ n / 8 := by omega
    rw [Nat.fold_succ]
    generalize hq : Nat.fold c (fun c hlt (p : Vector Line 8 × Scratchpad n) =>
      (pseudoRounds keys p.1,
        setGroup p.2 c (Nat.lt_of_lt_of_le hlt hle) (pseudoRounds keys p.1))) (t, pad) = q
    obtain ⟨htext, hpad⟩ := hq ▸ ih hle
    have hnext : pseudoRounds keys q.1 = t.map (Nat.repeat (Aes.pseudoRound keys) (c + 1)) := by
      rw [htext, pseudoRounds_eq, Vector.map_map]
      rfl
    refine ⟨hnext, fun k hk => ?_⟩
    rw [hnext, getElem_setGroup, hpad]
    by_cases hkc : k / 8 = c
    · rw [if_pos hkc, if_pos (by omega), Vector.getElem_map, Scratchpad.filled, hkc]
      rfl
    · have hlt : k < 8 * (c + 1) ↔ k < 8 * c := by omega
      simp only [if_neg hkc, hlt]

theorem explode_eq (s : Keccak.State) (pad : Scratchpad n) :
    explode s pad = Scratchpad.explode s pad := by
  apply Vector.ext
  intro k hk
  rw [Scratchpad.getElem_explode, ← fillKeys_eq]
  exact (fillGroups_run (fillKeys s) (Scratchpad.text s) pad (n / 8) (Nat.le_refl _)).2 k hk

/-! ### Folding -/

/-- After `c` groups each line of the text has taken in `c` lines of its column. -/
theorem get_foldGroups (keys : Aes.RoundKeys) (t : Vector Line 8) (pad : Scratchpad n) (c : Nat)
    (hc : c ≤ n / 8) (i : Fin 8) :
    (Nat.fold c (fun c hlt t => pseudoRounds keys
        (Vector.zipWith (· ^^^ ·) t (group pad c (Nat.lt_of_lt_of_le hlt hc)))) t).get i
      = Scratchpad.columnFold keys pad i c hc (t.get i) := by
  induction c with
  | zero => rfl
  | succ c ih =>
    rw [Scratchpad.columnFold_succ, ← ih (by omega), Nat.fold_succ, pseudoRounds_eq]
    change (Vector.map _ (Vector.zipWith _ _ _))[i.val] = _
    rw [Vector.getElem_map, Vector.getElem_zipWith, group, Vector.getElem_ofFn]
    rfl

theorem implode_eq (s : Keccak.State) (pad : Scratchpad n) :
    implode s pad = Scratchpad.implode s pad := by
  have htext : Nat.fold (n / 8) (fun c hc t => pseudoRounds (foldKeys s)
        (Vector.zipWith (· ^^^ ·) t (group pad c hc))) (Scratchpad.text s)
      = Nat.fold (8 * (n / 8)) (fun k hk t => Scratchpad.foldLine (foldKeys s) pad k (by omega) t)
        (Scratchpad.text s) := by
    apply Vector.ext
    intro i hi
    have hgroups := get_foldGroups (foldKeys s) (Scratchpad.text s) pad (n / 8) (Nat.le_refl _)
    have hlines := Scratchpad.get_foldLines_all (foldKeys s) (Scratchpad.text s) pad
    exact (hgroups ⟨i, hi⟩).trans (hlines ⟨i, hi⟩).symm
  rw [Scratchpad.implode, ← foldKeys_eq, ← htext]
  rfl

/-! ### Mixing -/

/-- Where a byte's entry stands in either table. -/
def flipPlace (v : UInt8) : UInt8 := ((v >>> 3) &&& 6 ||| v &&& 1) <<< 1

/-- What the two tables flip at a byte: the same two bits of it. -/
theorem flip_tables (v : UInt8) :
    ((0x75310 : UInt32) >>> (flipPlace v).toUInt32 &&& 0x30).toUInt64 <<< 24
      = ((0x7531 : UInt64) >>> (flipPlace v).toUInt64 &&& 3) <<< 28 := by
  revert v
  refine forall_byte ?_
  decide +kernel

theorem flipByte11_eq (x : Line) : flipByte11 x = ⟨x.lo, flipHigh x.hi⟩ := by
  have h := flip_tables (x.hi >>> 24).toUInt8
  unfold flipPlace at h
  rw [flipByte11, flipHigh, h]

/-- The registers that go with a state of the plain mixer: the place to read next is in its first
line. -/
def Registers.ofMixer (m : Mixer) : Registers := ⟨m.pad, m.a.lo, m.a.hi, m.b, m.a.lo⟩

/-- The registers between the halves of a pass: the place to read next is in the round's result. -/
def Registers.ofRound (m : Mixer) : Registers := ⟨m.pad, m.a.lo, m.a.hi, m.b, m.b.lo⟩

theorem roundStep_ofMixer (m : Mixer) :
    roundStep (Registers.ofMixer m) = Registers.ofRound (m.roundStep flipByte11) := by
  have hround : Aes.encrypt m.pad[lineIndex m.a.lo] ⟨m.a.lo, m.a.hi⟩
      = Aes.round m.pad[lineIndex m.a.lo] m.a := Aes.encrypt_eq_round _ _
  unfold roundStep Mixer.roundStep Registers.ofMixer Registers.ofRound
  dsimp only
  rw [hround, Line.xor_comm m.b, flipByte11_eq]

theorem productStep_ofRound (tweak : UInt64) (m : Mixer) :
    productStep tweak (Registers.ofRound m) = Registers.ofMixer (m.productStep tweak) := by
  unfold productStep Mixer.productStep Registers.ofMixer Registers.ofRound
  dsimp only
  rw [Line.xor_comm m.pad[lineIndex m.b.lo]]
  rfl

theorem pass_ofMixer (tweak : UInt64) (m : Mixer) :
    pass tweak (Registers.ofMixer m) = Registers.ofMixer (m.passV1 tweak) := by
  rw [pass, roundStep_ofMixer, productStep_ofRound, Mixer.passV1, Mixer.pass]

/-- The two loops stay in step. -/
theorem repeat_pass_ofMixer (tweak : UInt64) (m : Mixer) (k : Nat) :
    Nat.repeat (pass tweak) k (Registers.ofMixer m)
      = Registers.ofMixer (Nat.repeat (Mixer.passV1 tweak) k m) := by
  induction k with
  | zero => rfl
  | succ k ih => rw [Nat.repeat, ih, pass_ofMixer, Nat.repeat]

end Accelerated

/-! ### Digests -/

open Accelerated

/-- From equal pads, any number of passes and the folding lead to one digest. -/
theorem conclude_repeat_pass (s : Keccak.State) (tweak : UInt64) (k : Nat) (m : Mixer) :
    finish (Keccak.permute
        (Accelerated.implode s (Nat.repeat (Accelerated.pass tweak) k (Registers.ofMixer m)).pad))
      = conclude s (Nat.repeat (Mixer.passV1 tweak) k m).pad := by
  rw [repeat_pass_ofMixer, implode_eq]
  rfl

theorem hashAccelerated_eq_hashV1 (blob : Bytes) (h : variant1Min ≤ blob.size) :
    hashAccelerated blob h = hashV1 blob h := by
  unfold hashAccelerated
  dsimp only
  rw [explode_eq]
  exact conclude_repeat_pass (Keccak.hash blob) (tweakOf (Keccak.hash blob) blob h) passCount
    ⟨Scratchpad.explode (Keccak.hash blob) freshPad, startA (Keccak.hash blob),
      startB (Keccak.hash blob)⟩

/-- What the fast path takes, the standard path hashes under variant 1. -/
theorem standardVariant_of_checkFast {blob : Bytes} (h : checkFast blob = .ok ()) :
    standardVariant blob = .ok .v1 := by
  have hsize := size_of_checkFast h
  have hmajor : blob[0]? = some 7 := by
    unfold checkFast at h
    rw [dif_pos hsize] at h
    split at h
    next h7 => rw [Array.getElem?_eq_getElem (by omega), h7]
    next => cases h
  rw [standardVariant, hmajor]
  simp only
  rw [if_neg (by decide), if_neg (by unfold variant1Min; omega)]
  rfl

theorem hashFast_of_checkFast {blob : Bytes} (hb : checkFast blob = .ok ())
    (h : variant1Min ≤ blob.size) : hashFast blob = .ok (hashV1 blob h) := by
  unfold hashFast
  split
  next => rw [hashAccelerated_eq_hashV1]
  next e he => rw [hb] at he; cases he

theorem hashStandard_of_checkFast {blob : Bytes} (hb : checkFast blob = .ok ())
    (h : variant1Min ≤ blob.size) : hashStandard blob = .ok (hashV1 blob h) := by
  rw [hashStandard, standardVariant_of_checkFast hb]
  exact dif_pos h

theorem hashFast_eq_hashStandard {blob : Bytes} (h : checkFast blob = .ok ()) :
    hashFast blob = hashStandard blob := by
  have hroom : variant1Min ≤ blob.size := Nat.le_trans (by decide) (size_of_checkFast h).1
  rw [hashFast_of_checkFast h hroom, hashStandard_of_checkFast h hroom]

/-- Phase by phase and in its digests the accelerated path is the plain one: the round instruction
and the keys, the filled pad, the mixing loop after any number of passes, the folded state, and for
every blob it takes the digest, which is also that of the standard path. -/
theorem accelerated_eq_standard :
    (∀ x key : Line, Aes.encrypt x key = Aes.round x key) ∧
    (∀ k0 k1 : Line, Aes.assistedKeys k0 k1 = Aes.expandKey k0 k1) ∧
    (∀ (n : Nat) (s : Keccak.State) (pad : Scratchpad n),
      Accelerated.explode s pad = Scratchpad.explode s pad) ∧
    (∀ (tweak : UInt64) (m : Mixer) (k : Nat),
      Nat.repeat (Accelerated.pass tweak) k (Registers.ofMixer m)
        = Registers.ofMixer (Nat.repeat (Mixer.passV1 tweak) k m)) ∧
    (∀ (n : Nat) (s : Keccak.State) (pad : Scratchpad n),
      Accelerated.implode s pad = Scratchpad.implode s pad) ∧
    ∀ blob : Bytes, checkFast blob = .ok () → ∃ h : variant1Min ≤ blob.size,
      hashFast blob = .ok (hashV1 blob h) ∧ hashStandard blob = hashFast blob := by
  refine ⟨Aes.encrypt_eq_round, Aes.assistedKeys_eq_expandKey, fun _ => explode_eq,
    repeat_pass_ofMixer, fun _ => implode_eq, fun blob hb => ?_⟩
  have h : variant1Min ≤ blob.size := Nat.le_trans (by decide) (size_of_checkFast hb).1
  have hfast := hashFast_of_checkFast hb h
  exact ⟨h, hfast, (hashStandard_of_checkFast hb h).trans hfast.symm⟩

/-- A blob of 76 bytes of version 7. -/
theorem accelerated_eq_standard_shortest :
    let blob : Bytes := #[7] ++ Array.replicate 75 1
    checkFast blob = .ok () ∧ ∃ h : variant1Min ≤ blob.size,
      hashFast blob = .ok (hashV1 blob h) ∧ hashStandard blob = hashFast blob := by
  intro blob
  have hb : checkFast blob = .ok () := rfl
  obtain ⟨-, -, -, -, -, hdigests⟩ := accelerated_eq_standard
  exact ⟨hb, hdigests blob hb⟩

end ProofOfWork.Cryptonight

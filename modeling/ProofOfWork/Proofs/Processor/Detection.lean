import Mathlib.Data.List.Basic
import ProofOfWork.Proofs.Batch
import ProofOfWork.Proofs.Bits

/-!
# ProofOfWork.Proofs.Processor.Detection — what a processor must show for its features

The features have bits of their own in a snapshot's word, so that recording one adds it and changes
no other (`has_record`).  A snapshot has therefore just the features that the processor shows
(`features_has`), and each is shown by a few registers only.  From this come both main statements: no
vector feature without the registers that the operating system must save, and no trace of registers
that the processor does not expose.
-/

namespace ProofOfWork.Processor

/-! ### Single bits -/

theorem bit64_one_shiftLeft {i : Nat} (hi : i < 64) (j : Nat) :
    bit64 (1 <<< i.toUInt64) j = decide (i = j) := by
  have hamount : i.toUInt64.toNat % 64 = i := by
    have hword : i.toUInt64.toNat = i % 18446744073709551616 := UInt64.toNat_ofNat'
    omega
  have hone (k : Nat) : bit64 1 k = decide (k = 0) := BitVec.getLsbD_one
  rw [bit64_shiftLeft, hamount, hone]
  grind

/-- Of a word masked by a single bit that bit is left, if it is set. -/
theorem and_one_shiftLeft_ne_zero (x : UInt64) {i : Nat} (hi : i < 64) :
    (x &&& 1 <<< i.toUInt64 != 0) = bit64 x i := by
  have hmasked (j : Nat) : bit64 (x &&& 1 <<< i.toUInt64) j = (bit64 x j && decide (i = j)) := by
    rw [bit64_and, bit64_one_shiftLeft hi]
  cases hx : bit64 x i with
  | true =>
    rw [bne_iff_ne]
    intro hzero
    have hbit := hmasked i
    rw [hzero, hx, bit64_zero, decide_eq_true rfl] at hbit
    cases hbit
  | false =>
    have hzero : x &&& 1 <<< i.toUInt64 = 0 := by
      apply eq_of_bit64
      intro j _
      rw [hmasked, bit64_zero]
      by_cases hj : i = j
      · rw [← hj, hx, Bool.false_and]
      · rw [decide_eq_false hj, Bool.and_false]
    rw [hzero]
    rfl

theorem bitSet_eq (r : UInt32) (n : Fin 32) : bitSet r n = bit32 r n.val := by
  have hlow (x : UInt32) : (x &&& 1 != 0) = bit32 x 0 := by
    have hbit : (x &&& 1).toBitVec = BitVec.setWidth 32 (BitVec.ofBool (bit32 x 0)) :=
      BitVec.and_one_eq_setWidth_ofBool_getLsbD
    cases hx : bit32 x 0 with
    | true =>
      have hone : x &&& 1 = 1 := UInt32.eq_of_toBitVec_eq (by rw [hbit, hx]; rfl)
      rw [hone]
      rfl
    | false =>
      have hzero : x &&& 1 = 0 := UInt32.eq_of_toBitVec_eq (by rw [hbit, hx]; rfl)
      rw [hzero]
      rfl
  rw [bitSet, hlow, bit32_shiftRight, toNat_amount32, Nat.mod_eq_of_lt n.isLt, Nat.add_zero]

/-- A word has all bits of a mask. -/
theorem and_beq_self_iff (x m : UInt64) :
    (x &&& m == m) = true ↔ ∀ i < 64, bit64 m i → bit64 x i := by
  rw [beq_iff_eq]
  constructor
  · intro h i _ hm
    rw [← h, bit64_and, Bool.and_eq_true] at hm
    exact hm.1
  · intro h
    apply eq_of_bit64
    intro i hi
    rw [bit64_and]
    cases hm : bit64 m i with
    | false => exact Bool.and_false _
    | true => rw [h i hi hm, Bool.and_true]

/-! ### Features as bits of a word -/

namespace Feature

theorem mem_all (f : Feature) : f ∈ all := by cases f <;> decide

theorem position_lt (f : Feature) : f.position < 64 :=
  Nat.lt_trans (List.idxOf_lt_length_of_mem (mem_all f)) (by decide)

theorem position_inj {f g : Feature} : f.position = g.position ↔ f = g :=
  List.idxOf_inj (mem_all f)

end Feature

namespace Snapshot

theorem has_eq_bit (s : Snapshot) (f : Feature) : s.has f = bit64 s.bits f.position :=
  and_one_shiftLeft_ne_zero s.bits f.position_lt

theorem has_empty (f : Feature) : empty.has f = false := by
  rw [has_eq_bit]
  exact bit64_zero _

/-- Recording a feature adds it where it is found, and leaves every other as it was. -/
theorem has_record (s : Snapshot) (g f : Feature) (found : Bool) :
    (s.record g found).has f = (s.has f || (found && decide (g = f))) := by
  cases found with
  | false => rw [Bool.false_and, Bool.or_false]; rfl
  | true =>
    rw [has_eq_bit, has_eq_bit, Bool.true_and]
    change bit64 (s.bits ||| mask g) f.position = _
    rw [bit64_or, mask, bit64_one_shiftLeft g.position_lt, decide_eq_decide.mpr Feature.position_inj]

/-- After a run over a list of features a snapshot has those of the list that were found, and those it
had before. -/
theorem has_foldl_record (found : Feature → Bool) (l : List Feature) (s : Snapshot) (f : Feature) :
    (l.foldl (fun s g => s.record g (found g)) s).has f
      = (s.has f || (decide (f ∈ l) && found f)) := by
  induction l generalizing s with
  | nil => simp
  | cons g l ih =>
    rw [List.foldl_cons, ih, has_record, Bool.or_assoc]
    congr 1
    by_cases hg : g = f
    · subst hg
      simp
    · have hne : f ≠ g := fun h => hg h.symm
      simp [hg, hne]

end Snapshot

theorem features_has (p : Identification) (f : Feature) :
    p.features.has f = (decide (1 ≤ p.maxLeaf) && p.shows f.origin) := by
  change p.snapshot.has f = _
  rw [Identification.snapshot]
  by_cases hmax : 1 ≤ p.maxLeaf
  · rw [if_pos hmax, Snapshot.has_foldl_record, Snapshot.has_empty, decide_eq_true f.mem_all,
      decide_eq_true hmax, Bool.false_or]
  · rw [if_neg hmax, Snapshot.has_empty, decide_eq_false hmax, Bool.false_and]

/-! ### Saved registers -/

/-- The operating system saves the vector registers: leaf 1 announces the control register and the
vector instructions, and the control register the lower and the upper halves of those registers. -/
structure SavesVectors (p : Identification) : Prop where
  control : bit32 (p.cpuid 1 0).ecx 27
  vectors : bit32 (p.cpuid 1 0).ecx 28
  lower : bit64 p.xcr0 1
  upper : bit64 p.xcr0 2

/-- The control register announces the masks and the wide vector registers. -/
structure SavesWideVectors (p : Identification) : Prop where
  masks : bit64 p.xcr0 5
  wideHalves : bit64 p.xcr0 6
  wideRegisters : bit64 p.xcr0 7

theorem bit64_control (p : Identification) (i : Nat) :
    bit64 p.control i = (bit32 (p.cpuid 1 0).ecx 27 && bit64 p.xcr0 i) := by
  rw [Identification.control, bitSet_eq]
  change bit64 (if bit32 (p.cpuid 1 0).ecx 27 then p.xcr0 else 0) i = _
  cases bit32 (p.cpuid 1 0).ecx 27 with
  | true => rfl
  | false => exact bit64_zero i

theorem savesAvx_iff (p : Identification) : p.savesAvx ↔ SavesVectors p := by
  have hmask : ∀ i < 64, bit64 0x6 i → i = 1 ∨ i = 2 := by decide
  rw [Identification.savesAvx, Bool.and_eq_true, and_beq_self_iff, bitSet_eq]
  constructor
  · rintro ⟨hvectors, hcontrol⟩
    have hlower := hcontrol 1 (by decide) (by decide)
    have hupper := hcontrol 2 (by decide) (by decide)
    rw [bit64_control, Bool.and_eq_true] at hlower hupper
    exact ⟨hlower.1, hvectors, hlower.2, hupper.2⟩
  · rintro ⟨hcontrol, hvectors, hlower, hupper⟩
    refine ⟨hvectors, fun i hi hbit => ?_⟩
    rw [bit64_control, hcontrol, Bool.true_and]
    obtain rfl | rfl := hmask i hi hbit
    · exact hlower
    · exact hupper

theorem saves_avx512_iff (p : Identification) :
    p.saves .avx512 ↔ SavesVectors p ∧ SavesWideVectors p := by
  have hmask : ∀ i < 64, bit64 0xe0 i → i = 5 ∨ i = 6 ∨ i = 7 := by decide
  rw [Identification.saves, Bool.and_eq_true, savesAvx_iff, and_beq_self_iff]
  refine and_congr_right fun hvectors => ?_
  simp only [bit64_control, hvectors.control, Bool.true_and]
  constructor
  · intro h
    exact ⟨h 5 (by decide) (by decide), h 6 (by decide) (by decide), h 7 (by decide) (by decide)⟩
  · rintro ⟨hmasks, hhalves, hregisters⟩ i hi hbit
    obtain rfl | rfl | rfl := hmask i hi hbit
    · exact hmasks
    · exact hhalves
    · exact hregisters

/-! ### Vector features -/

/-- The features that work on the vector registers or save them, those of wide vectors apart. -/
def vectorFeatures : List Feature :=
  [.avx, .fma, .f16c, .xsave, .xop, .fma4, .avx2, .xsaveopt, .xsavec, .xsaves]

/-- A feature of wide vectors, by its name. -/
def IsWide (f : Feature) : Prop := "avx512".toList <+: f.name.toList

theorem saved_of_isWide {f : Feature} (h : IsWide f) : f.origin.saved = .avx512 := by
  revert h
  unfold IsWide
  cases f <;> decide

theorem saved_of_mem_vectorFeatures {f : Feature} (h : f ∈ vectorFeatures) :
    f.origin.saved = .avx := by
  revert h
  cases f <;> decide

theorem saves_of_has {p : Identification} {f : Feature} (h : p.features.has f) :
    p.saves f.origin.saved := by
  rw [features_has, Identification.shows, Bool.and_eq_true, Bool.and_eq_true] at h
  exact h.2.2

theorem savesVectors_of_has {p : Identification} {f : Feature}
    (hf : f ∈ vectorFeatures ∨ IsWide f) (h : p.features.has f) : SavesVectors p := by
  have hsaves := saves_of_has h
  obtain hf | hf := hf
  · rw [saved_of_mem_vectorFeatures hf] at hsaves
    exact (savesAvx_iff p).mp hsaves
  · rw [saved_of_isWide hf] at hsaves
    exact ((saves_avx512_iff p).mp hsaves).1

theorem has_avx_of_has {p : Identification} {f : Feature} (h : p.features.has f)
    (hvectors : SavesVectors p) : p.features.has .avx := by
  rw [features_has, Bool.and_eq_true] at h
  have hbit : bitSet (p.read .leaf1Ecx) 28 = true := (bitSet_eq _ _).trans hvectors.vectors
  rw [features_has, h.1, Bool.true_and]
  simp only [Identification.shows, Feature.origin, Identification.answers, Identification.saves, hbit,
    (savesAvx_iff p).mpr hvectors, Bool.and_self]

theorem has_of_require {f : Features} (h : Kind.avx2.require f = .ok ()) : f.has .avx2 := by
  by_contra hmissing
  obtain ⟨x, -, herror⟩ := Kind.require_eq_error (k := .avx2) hmissing
  rw [h] at herror
  cases herror

/-- No vector feature is found unless the operating system saves the vector registers, and none of
wide vectors unless it saves those too.  The same holds of the unit of eight lanes, in whatever way it
is come by, and the best kind is always one that the processor supports. -/
theorem vector_features_only_if_saved (p : Identification) :
    (∀ f, f ∈ vectorFeatures ∨ IsWide f → p.features.has f →
      SavesVectors p ∧ p.features.has .avx) ∧
    (∀ f, IsWide f → p.features.has f → SavesWideVectors p) ∧
    (Kind.best p.features = .avx2 ∨ Kind.avx2.require p.features = .ok () ∨
      Kind.avx2.isSupported p.features → SavesVectors p ∧ p.features.has .avx) ∧
    (Kind.best p.features).isSupported p.features := by
  have hsaved (f : Feature) (hf : f ∈ vectorFeatures ∨ IsWide f) (h : p.features.has f) :
      SavesVectors p ∧ p.features.has .avx :=
    ⟨savesVectors_of_has hf h, has_avx_of_has h (savesVectors_of_has hf h)⟩
  have hbest := Kind.best_isSupported p.features
  refine ⟨hsaved, fun f hf h => ?_, fun h => ?_, hbest⟩
  · have hsaves := saves_of_has h
    rw [saved_of_isWide hf] at hsaves
    exact ((saves_avx512_iff p).mp hsaves).2
  · refine hsaved .avx2 (.inl (by decide)) ?_
    obtain h | h | h := h
    · rw [h] at hbest
      exact hbest
    · exact has_of_require h
    · exact h

/-- A processor with every feature of wide vectors. -/
theorem vector_features_only_if_saved_wide :
    let p : Identification := ⟨fun leaf _ => if leaf = 0 then ⟨7, 0, 0, 0⟩
      else if leaf = 1 then ⟨0, 0, 0x18000000, 0⟩ else ⟨0, 0xdc230020, 2, 0⟩, 0xe6⟩
    (∀ f, IsWide f → p.features.has f) ∧ SavesWideVectors p ∧ SavesVectors p ∧
      Kind.best p.features = .avx2 ∧ p.features.has .avx := by
  intro p
  obtain ⟨hvector, hwide, hkind, -⟩ := vector_features_only_if_saved p
  have hall (f : Feature) : IsWide f → p.features.has f := by
    unfold IsWide
    cases f <;> decide
  have hvl : IsWide .avx512vl := by unfold IsWide; decide
  have hbest : Kind.best p.features = .avx2 := by decide
  exact ⟨hall, hwide _ hvl (hall _ hvl), (hvector _ (.inr hvl) (hall _ hvl)).1, hbest,
    (hkind (.inl hbest)).2⟩

/-! ### Exposed registers -/

/-- Two processors agree on the registers that those with leaf 1 expose. -/
structure AgreeExposed (p q : Identification) : Prop where
  leaf1Ecx : (p.cpuid 1 0).ecx = (q.cpuid 1 0).ecx
  leaf1Edx : (p.cpuid 1 0).edx = (q.cpuid 1 0).edx
  control : bit32 (p.cpuid 1 0).ecx 27 → p.xcr0 = q.xcr0
  maxExtended : (p.cpuid 0x80000000 0).eax = (q.cpuid 0x80000000 0).eax
  extendedEcx : 0x80000001 ≤ (p.cpuid 0x80000000 0).eax →
    (p.cpuid 0x80000001 0).ecx = (q.cpuid 0x80000001 0).ecx
  leaf7Ebx : 7 ≤ (p.cpuid 0 0).eax → (p.cpuid 7 0).ebx = (q.cpuid 7 0).ebx
  leaf7Ecx : 7 ≤ (p.cpuid 0 0).eax → (p.cpuid 7 0).ecx = (q.cpuid 7 0).ecx
  leaf13Eax : 13 ≤ (p.cpuid 0 0).eax → (p.cpuid 13 1).eax = (q.cpuid 13 1).eax

section Exposed

variable {p q : Identification} (hmax : (p.cpuid 0 0).eax = (q.cpuid 0 0).eax)
  (h : AgreeExposed p q)
include h

theorem control_congr : p.control = q.control := by
  apply eq_of_bit64
  intro i _
  rw [bit64_control, bit64_control, ← h.leaf1Ecx]
  cases hcontrol : bit32 (p.cpuid 1 0).ecx 27 with
  | true => rw [h.control hcontrol]
  | false => rfl

theorem saves_congr (r : SavedState) : p.saves r = q.saves r := by
  have havx : p.savesAvx = q.savesAvx := by
    rw [Identification.savesAvx, Identification.savesAvx, control_congr h]
    exact congrArg (fun r => bitSet r 28 && q.control &&& 0x6 == 0x6) h.leaf1Ecx
  cases r with
  | none => rfl
  | avx => exact havx
  | avx512 => rw [Identification.saves, Identification.saves, havx, control_congr h]

include hmax

theorem answers_congr (s : Source) : p.answers s = q.answers s := by
  cases s with
  | leaf1Ecx | leaf1Edx => rfl
  | extendedEcx =>
    exact congrArg (fun max : UInt32 => decide (0x80000001 ≤ max)) h.maxExtended
  | leaf7Ebx | leaf7Ecx => exact congrArg (fun max : UInt32 => decide (7 ≤ max)) hmax
  | leaf13Eax => exact congrArg (fun max : UInt32 => decide (13 ≤ max)) hmax

omit hmax in
theorem read_congr {s : Source} (hs : p.answers s) : p.read s = q.read s := by
  cases s with
  | leaf1Ecx => exact h.leaf1Ecx
  | leaf1Edx => exact h.leaf1Edx
  | extendedEcx => exact h.extendedEcx (of_decide_eq_true hs)
  | leaf7Ebx => exact h.leaf7Ebx (of_decide_eq_true hs)
  | leaf7Ecx => exact h.leaf7Ecx (of_decide_eq_true hs)
  | leaf13Eax => exact h.leaf13Eax (of_decide_eq_true hs)

theorem shows_congr (o : Origin) : p.shows o = q.shows o := by
  rw [Identification.shows, Identification.shows, ← answers_congr hmax h, saves_congr h]
  cases hs : p.answers o.source with
  | true => rw [read_congr h hs]
  | false => rfl

end Exposed

/-- The features are those of the exposed registers: processors that agree on these have the same
snapshot, whatever else they answer, and one without leaf 1 has none at all. -/
theorem snapshot_of_exposed :
    (∀ p q : Identification, (p.cpuid 0 0).eax = (q.cpuid 0 0).eax →
      (1 ≤ (p.cpuid 0 0).eax → AgreeExposed p q) →
      p.snapshot = q.snapshot ∧ p.features = q.features) ∧
    ∀ p : Identification, (p.cpuid 0 0).eax = 0 →
      p.snapshot = .empty ∧ ∀ f, p.features.has f = false := by
  refine ⟨fun p q hmax hexposed => ?_, fun p hmax => ?_⟩
  · have hsame : p.snapshot = q.snapshot := by
      rw [Identification.snapshot, Identification.snapshot, Identification.maxLeaf,
        Identification.maxLeaf, ← hmax]
      by_cases hleaf : 1 ≤ (p.cpuid 0 0).eax
      · rw [if_pos hleaf, if_pos hleaf]
        simp only [shows_congr hmax (hexposed hleaf)]
      · rw [if_neg hleaf, if_neg hleaf]
    exact ⟨hsame, by rw [Identification.features, hsame, ← Identification.features]⟩
  · have hempty : p.snapshot = .empty := by
      rw [Identification.snapshot, Identification.maxLeaf, hmax]
      rfl
    refine ⟨hempty, fun f => ?_⟩
    rw [Identification.features, hempty]
    exact Snapshot.has_empty f

/-- Two processors with leaf 1 alone, one of which answers zero and the other ones to all that it does
not expose, and a processor without leaf 1 that answers ones. -/
theorem snapshot_of_exposed_leaf1 :
    let exposed (rest : UInt32) (control : UInt64) : Identification :=
      ⟨fun leaf _ => if leaf = 0 then ⟨1, rest, rest, rest⟩
        else if leaf = 1 then ⟨rest, rest, 0x12000000, 0x04000000⟩
        else if leaf = 0x80000000 then ⟨0x80000000, rest, rest, rest⟩
        else ⟨rest, rest, rest, rest⟩, control⟩
    let p := exposed 0 0
    let q := exposed 0xffffffff 0xffffffffffffffff
    let silent : Identification :=
      ⟨fun leaf _ => ⟨if leaf = 0 then 0 else 0xffffffff, 0xffffffff, 0xffffffff, 0xffffffff⟩,
        0xffffffffffffffff⟩
    AgreeExposed p q ∧ p.snapshot = q.snapshot ∧ q.features.enabled = ["sse2", "aes"] ∧
      silent.snapshot = .empty ∧ silent.features.has .avx2 = false := by
  intro exposed p q silent
  obtain ⟨hsame, hsilent⟩ := snapshot_of_exposed
  obtain ⟨hempty, hnone⟩ := hsilent silent rfl
  have hagree : AgreeExposed p q := by
    refine ⟨?_, ?_, ?_, ?_, ?_, ?_, ?_, ?_⟩ <;> decide
  obtain ⟨hsnapshot, hfeatures⟩ := hsame p q (by decide) fun _ => hagree
  refine ⟨hagree, hsnapshot, ?_, hempty, hnone .avx2⟩
  rw [← hfeatures]
  decide

end ProofOfWork.Processor

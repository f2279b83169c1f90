import Mathlib.Data.List.Basic
import ProofOfWork.Proofs.Processor.Detection

/-!
# ProofOfWork.Proofs.Processor.Monotone — registers with more bits show more features

Every test on the way to a feature asks that bits are set or that a number is large enough, and none
asks the opposite.  A processor whose registers hold all the bits of another one's therefore shows
all the features of the other (`shows_of_contained`), and since the kinds are tried from the widest
on, its best kind is at least as wide (`way_best_le`).  Along the way the leaves are read one after
the other, those that are not there skipped (`snapshot_eq_foundIn`), and a snapshot only grows from
leaf to leaf (`has_readLeaf`).
-/

namespace ProofOfWork

namespace Processor

/-! ### Contained words -/

section Word

variable {x y : UInt32} (h : x &&& y = x)
include h

/-- A word is no less than the words it contains. -/
theorem le_of_contained : x ≤ y := by
  rw [← h]
  exact UInt32.and_le_right

theorem bit32_of_contained {i : Nat} (hx : bit32 x i) : bit32 y i := by
  rw [← h, bit32_and, Bool.and_eq_true] at hx
  exact hx.2

theorem bitSet_of_contained {n : Fin 32} (hx : bitSet x n) : bitSet y n := by
  rw [bitSet_eq] at hx ⊢
  exact bit32_of_contained h hx

end Word

/-- What a number reaches, a greater one reaches too. -/
theorem reaches_of_le {n a b : UInt32} (hab : a ≤ b) (h : decide (n ≤ a)) : decide (n ≤ b) :=
  decide_eq_true (UInt32.le_trans (of_decide_eq_true h) hab)

theorem bit64_of_contained {x y : UInt64} (h : x &&& y = x) {i : Nat} (hx : bit64 x i) :
    bit64 y i := by
  rw [← h, bit64_and, Bool.and_eq_true] at hx
  exact hx.2

/-! ### Contained processors -/

/-- Every bit of the registers `r` is set in the registers `s`. -/
structure Registers.Contained (r s : Registers) : Prop where
  eax : r.eax &&& s.eax = r.eax
  ebx : r.ebx &&& s.ebx = r.ebx
  ecx : r.ecx &&& s.ecx = r.ecx
  edx : r.edx &&& s.edx = r.edx

/-- Whatever `p` is asked, `q` answers with all the bits of `p`. -/
structure Identification.Contained (p q : Identification) : Prop where
  cpuid : ∀ leaf subleaf, (p.cpuid leaf subleaf).Contained (q.cpuid leaf subleaf)
  xcr0 : p.xcr0 &&& q.xcr0 = p.xcr0

section Contained

variable {p q : Identification} (h : p.Contained q)
include h

theorem read_contained (s : Source) : p.read s &&& q.read s = p.read s := by
  cases s with
  | leaf1Ecx => exact (h.cpuid 1 0).ecx
  | leaf1Edx => exact (h.cpuid 1 0).edx
  | extendedEcx => exact (h.cpuid 0x80000001 0).ecx
  | leaf7Ebx => exact (h.cpuid 7 0).ebx
  | leaf7Ecx => exact (h.cpuid 7 0).ecx
  | leaf13Eax => exact (h.cpuid 13 1).eax

theorem maxLeaf_le : p.maxLeaf ≤ q.maxLeaf := le_of_contained (h.cpuid 0 0).eax

theorem maxExtendedLeaf_le : p.maxExtendedLeaf ≤ q.maxExtendedLeaf :=
  le_of_contained (h.cpuid 0x80000000 0).eax

theorem answers_of_contained {s : Source} (hs : p.answers s) : q.answers s := by
  cases s with
  | leaf1Ecx | leaf1Edx => rfl
  | extendedEcx => exact reaches_of_le (maxExtendedLeaf_le h) hs
  | leaf7Ebx | leaf7Ecx | leaf13Eax => exact reaches_of_le (maxLeaf_le h) hs

/-- The control register is read under a bit of leaf 1, which `q` has as well. -/
theorem savesVectors_of_contained (hp : SavesVectors p) : SavesVectors q where
  control := bit32_of_contained (h.cpuid 1 0).ecx hp.control
  vectors := bit32_of_contained (h.cpuid 1 0).ecx hp.vectors
  lower := bit64_of_contained h.xcr0 hp.lower
  upper := bit64_of_contained h.xcr0 hp.upper

theorem savesWideVectors_of_contained (hp : SavesWideVectors p) : SavesWideVectors q where
  masks := bit64_of_contained h.xcr0 hp.masks
  wideHalves := bit64_of_contained h.xcr0 hp.wideHalves
  wideRegisters := bit64_of_contained h.xcr0 hp.wideRegisters

theorem saves_of_contained {r : SavedState} (hr : p.saves r) : q.saves r := by
  cases r with
  | none => rfl
  | avx => exact (savesAvx_iff q).mpr (savesVectors_of_contained h ((savesAvx_iff p).mp hr))
  | avx512 =>
    obtain ⟨hvectors, hwide⟩ := (saves_avx512_iff p).mp hr
    exact (saves_avx512_iff q).mpr
      ⟨savesVectors_of_contained h hvectors, savesWideVectors_of_contained h hwide⟩

theorem shows_of_contained {o : Origin} (ho : p.shows o) : q.shows o := by
  simp only [Identification.shows, Bool.and_eq_true] at ho ⊢
  obtain ⟨⟨hanswers, hbit⟩, hsaves⟩ := ho
  exact ⟨⟨answers_of_contained h hanswers, bitSet_of_contained (read_contained h o.source) hbit⟩,
    saves_of_contained h hsaves⟩

theorem has_of_contained {f : Feature} (hf : p.features.has f) : q.features.has f := by
  rw [features_has, Bool.and_eq_true] at hf ⊢
  obtain ⟨hmax, hshows⟩ := hf
  exact ⟨reaches_of_le (maxLeaf_le h) hmax, shows_of_contained h hshows⟩

end Contained

end Processor

/-! ### Kinds -/

namespace Kind

open Processor

variable {f g : Features}

theorem isSupported_of_has (h : ∀ x, f.has x → g.has x) {k : Kind} (hk : k.isSupported f) :
    k.isSupported g := by
  cases k with
  | avx2 => exact h .avx2 hk
  | sse2 => exact h .sse2 hk
  | swar2 | soft16 | scalar => rfl

/-- The kinds that are tried, of which every processor supports the last. -/
def preferred : List Kind := [avx2, sse2, swar2]

theorem find?_preferred (f : Features) :
    preferred.find? (fun k => k.isSupported f) = some (best f) := by
  have hpreferred : preferred = [avx2, sse2] ++ [swar2] := rfl
  have hlast : [swar2].find? (fun k => k.isSupported f) = some swar2 := rfl
  rw [hpreferred, List.find?_append, hlast, best]
  cases [avx2, sse2].find? fun k => k.isSupported f with
  | none | some => rfl

/-- Of kinds tried from the widest to the narrowest, the first that is supported is the widest. -/
theorem way_le_of_find? {l : List Kind} (hl : l.Pairwise fun a b => b.way ≤ a.way) {b k : Kind}
    (hb : l.find? (fun k => k.isSupported f) = some b) (hmem : k ∈ l) (hk : k.isSupported f) :
    k.way ≤ b.way := by
  induction l with
  | nil => cases hmem
  | cons a l ih =>
    obtain ⟨hwidest, hl⟩ := List.pairwise_cons.mp hl
    rw [List.find?_cons] at hb
    cases ha : a.isSupported f with
    | true =>
      obtain rfl : a = b := by simpa [ha] using hb
      obtain rfl | hmem := List.mem_cons.mp hmem
      · exact Nat.le_refl _
      · exact hwidest k hmem
    | false =>
      have hrest : l.find? (fun k => k.isSupported f) = some b := by simpa [ha] using hb
      obtain rfl | hmem := List.mem_cons.mp hmem
      · rw [ha] at hk
        cases hk
      · exact ih hl hrest hmem

/-- The best kind for one set of features is supported with more of them, if not the best. -/
theorem way_best_le (h : ∀ x, f.has x → g.has x) : (best f).way ≤ (best g).way :=
  way_le_of_find? (by decide) (find?_preferred g) (List.mem_of_find?_eq_some (find?_preferred f))
    (isSupported_of_has h (best_isSupported f))

end Kind

namespace Processor

/-! ### From leaf to leaf -/

/-- The leaves that features are read from. -/
inductive Leaf
  | first | extended | seventh | thirteenth
deriving DecidableEq

/-- The leaf of a register. -/
def Source.leaf : Source → Leaf
  | .leaf1Ecx | .leaf1Edx => .first
  | .extendedEcx => .extended
  | .leaf7Ebx | .leaf7Ecx => .seventh
  | .leaf13Eax => .thirteenth

namespace Leaf

/-- In the order in which they are read. -/
def all : List Leaf := [first, extended, seventh, thirteenth]

/-- The features that are read from a leaf, in reporting order. -/
def features (l : Leaf) : List Feature := Feature.all.filter fun f => f.origin.source.leaf == l

theorem flatMap_features : all.flatMap features = Feature.all := by decide

end Leaf

namespace Identification

variable (p : Identification)

/-- Whether the processor has a leaf, beyond the first one. -/
def exposes : Leaf → Bool
  | .first => true
  | .extended => 0x80000001 ≤ p.maxExtendedLeaf
  | .seventh => 7 ≤ p.maxLeaf
  | .thirteenth => 13 ≤ p.maxLeaf

/-- What is found in a leaf is recorded; a leaf that is not there is skipped. -/
def readLeaf (s : Snapshot) (l : Leaf) : Snapshot :=
  if p.exposes l then
    l.features.foldl (fun s f => s.record f
      (bitSet (p.read f.origin.source) f.origin.bit && p.saves f.origin.saved)) s
  else s

def foundIn (leaves : List Leaf) : Snapshot := leaves.foldl p.readLeaf .empty

theorem answers_eq_exposes (s : Source) : p.answers s = p.exposes s.leaf := by
  cases s <;> rfl

/-- A feature of a leaf is shown by the bit and the saved registers alone, if the leaf is there. -/
theorem readLeaf_eq (s : Snapshot) (l : Leaf) :
    p.readLeaf s l = l.features.foldl (fun s f => s.record f (p.shows f.origin)) s := by
  have hleaf (f : Feature) (hf : f ∈ l.features) : p.shows f.origin = (p.exposes l &&
      bitSet (p.read f.origin.source) f.origin.bit && p.saves f.origin.saved) := by
    obtain ⟨-, hsource⟩ := List.mem_filter.mp hf
    rw [Identification.shows, answers_eq_exposes, eq_of_beq hsource]
  rw [readLeaf]
  cases hexposes : p.exposes l with
  | true =>
    rw [if_pos rfl]
    refine List.foldl_ext _ _ _ fun s f hf => ?_
    rw [hleaf f hf, hexposes, Bool.true_and]
  | false =>
    have hskip := List.foldl_ext (fun s f => Snapshot.record s f (p.shows f.origin))
      (fun s _ => s) s fun s f hf => by rw [hleaf f hf, hexposes]; rfl
    rw [hskip, List.foldl_fixed, if_neg Bool.false_ne_true]

/-- The features in reporting order are those of the leaves one after the other. -/
theorem snapshot_eq_foundIn :
    p.snapshot = if 1 ≤ p.maxLeaf then p.foundIn Leaf.all else .empty := by
  rw [snapshot, foundIn, ← Leaf.flatMap_features, List.foldl_flatMap]
  simp only [← readLeaf_eq]

variable {s : Snapshot} {f : Feature}

theorem has_readLeaf (hf : s.has f) (l : Leaf) : (p.readLeaf s l).has f := by
  rw [readLeaf_eq, Snapshot.has_foldl_record, hf, Bool.true_or]

theorem has_foldl_readLeaf (hf : s.has f) (leaves : List Leaf) :
    (leaves.foldl p.readLeaf s).has f := by
  induction leaves generalizing s with
  | nil => exact hf
  | cons l leaves ih => exact ih (p.has_readLeaf hf l)

end Identification

/-! ### Monotonicity -/

/-- Where the registers of one processor contain those of another, so do its features and its kinds,
and its best kind is at least as wide.  The features are found leaf by leaf, and what an earlier leaf
has shown no later one takes away. -/
theorem detection_monotone :
    (∀ p q : Identification, p.Contained q →
      (∀ f, p.features.has f → q.features.has f) ∧
      (∀ k : Kind, k.isSupported p.features → k.isSupported q.features) ∧
      (Kind.best p.features).way ≤ (Kind.best q.features).way) ∧
    ∀ p : Identification,
      (p.snapshot = if 1 ≤ p.maxLeaf then p.foundIn Leaf.all else .empty) ∧
      ∀ (earlier later : List Leaf) (f : Feature),
        (p.foundIn earlier).has f → (p.foundIn (earlier ++ later)).has f := by
  refine ⟨fun p q h => ?_, fun p => ⟨p.snapshot_eq_foundIn, fun earlier later f hf => ?_⟩⟩
  · have hhas (f : Feature) : p.features.has f → q.features.has f := has_of_contained h
    exact ⟨hhas, fun k => Kind.isSupported_of_has hhas, Kind.way_best_le hhas⟩
  · rw [Identification.foundIn, List.foldl_append]
    exact p.has_foldl_readLeaf hf later

/-- A processor with leaf 1 alone and one with leaf 7 as well, where the registers of eight lanes are
saved. -/
theorem detection_monotone_wider :
    let narrow : Identification := ⟨fun leaf _ =>
      if leaf = 0 then ⟨1, 0, 0, 0⟩ else if leaf = 1 then ⟨0, 0, 0x02000000, 0x04000000⟩
      else ⟨0, 0, 0, 0⟩, 1⟩
    let wide : Identification := ⟨fun leaf _ =>
      if leaf = 0 then ⟨7, 0, 0, 0⟩ else if leaf = 1 then ⟨0, 0, 0x1a000000, 0x06000000⟩
      else ⟨0, 0x20, 0, 0⟩, 7⟩
    narrow.Contained wide ∧ narrow.features.enabled = ["sse2", "aes"] ∧
      wide.features.has .sse2 ∧ wide.features.has .aes ∧ Kind.best narrow.features = .sse2 ∧
      Kind.best wide.features = .avx2 ∧ 4 ≤ (Kind.best wide.features).way ∧
      (wide.foundIn [.first]).has .aes ∧ (wide.foundIn [.first, .seventh]).has .aes := by
  intro narrow wide
  have hcontained : narrow.Contained wide := by
    refine ⟨fun leaf subleaf => ?_, by decide⟩
    simp only [narrow, wide]
    split_ifs
    all_goals constructor <;> decide
  obtain ⟨hmono, hleaves⟩ := detection_monotone
  obtain ⟨hhas, -, hway⟩ := hmono narrow wide hcontained
  have hbest : Kind.best narrow.features = .sse2 := by decide
  rw [hbest] at hway
  have hfirst : (wide.foundIn [.first]).has .aes := by decide
  refine ⟨hcontained, by decide, hhas .sse2 (by decide), hhas .aes (by decide), hbest, by decide,
    hway, hfirst, (hleaves wide).2 [.first] [.seventh] .aes hfirst⟩

end Processor

end ProofOfWork

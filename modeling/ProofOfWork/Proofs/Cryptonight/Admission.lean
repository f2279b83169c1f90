import ProofOfWork.Cryptonight.Hash

/-!
# ProofOfWork.Proofs.Cryptonight.Admission — the checks are the conditions of the hash

The standard check is neither too lax nor too strict: what it accepts has a digest, and what it
refuses is refused by the hash with the check's own error.  Under a variant given from outside, only
a blob with no room for the tweak of variant 1 has no digest.
-/

namespace ProofOfWork.Cryptonight

variable {blob : Bytes}

/-! ### The standard check -/

theorem checkStandard_eq_ok_iff :
    checkStandard blob = .ok () ↔ ∃ v, standardVariant blob = .ok v := by
  unfold checkStandard
  cases standardVariant blob with
  | error e => exact ⟨nofun, nofun⟩
  | ok v => exact ⟨fun _ => ⟨v, rfl⟩, fun _ => rfl⟩

theorem checkStandard_eq_error_iff {e : BlobError} :
    checkStandard blob = .error e ↔ standardVariant blob = .error e := by
  unfold checkStandard
  cases standardVariant blob with
  | error e' => exact ⟨fun h => by cases h; rfl, fun h => by cases h; rfl⟩
  | ok v => exact ⟨nofun, nofun⟩

/-- Only a blob that is read under variant 1 must have the tweak's bytes. -/
theorem size_of_standardVariant (h : standardVariant blob = .ok .v1) :
    variant1Min ≤ blob.size := by
  unfold standardVariant at h
  split at h
  next => cases h
  next major _ =>
    by_cases hhigh : 127 < major
    · rw [if_pos hhigh] at h
      cases h
    · rw [if_neg hhigh] at h
      by_cases hshort : Variant.ofMajor major = .v1 ∧ blob.size < variant1Min
      · rw [if_pos hshort] at h
        cases h
      · rw [if_neg hshort] at h
        have hv1 : Variant.ofMajor major = .v1 := Except.ok.inj h
        exact Nat.le_of_not_lt fun hlt => hshort ⟨hv1, hlt⟩

/-! ### What the checks depend on -/

section Congr

variable {a b : Bytes} (hsize : a.size = b.size) (hfirst : a[0]? = b[0]?)
include hsize hfirst

end Congr

/-! ### The hash under a variant -/

theorem hashVariant_eq_ok {v : Variant} (h : v = .v1 → variant1Min ≤ blob.size) :
    ∃ d, hashVariant v blob = .ok d := by
  cases v with
  | v0 => exact ⟨hashV0 blob, rfl⟩
  | v1 => exact ⟨hashV1 blob (h rfl), dif_pos (h rfl)⟩
  | v2 => exact ⟨hashV2 blob, rfl⟩

theorem hashVariant_eq_error_iff {v : Variant} :
    (∃ r, hashVariant v blob = .error r) ↔ v = .v1 ∧ blob.size < variant1Min := by
  constructor
  · rintro ⟨r, hr⟩
    refine Decidable.byContradiction fun hroom => ?_
    obtain ⟨d, hd⟩ : ∃ d, hashVariant v blob = .ok d :=
      hashVariant_eq_ok fun hv => Nat.le_of_not_lt fun hlt => hroom ⟨hv, hlt⟩
    rw [hd] at hr
    cases hr
  · rintro ⟨rfl, hlt⟩
    exact ⟨.untweakable blob.size, dif_neg (Nat.not_le_of_gt hlt)⟩

/-! ### The standard hash -/

theorem hashStandard_of_accepted (h : checkStandard blob = .ok ()) :
    ∃ d, hashStandard blob = .ok d := by
  obtain ⟨v, hv⟩ := checkStandard_eq_ok_iff.mp h
  obtain ⟨d, hd⟩ : ∃ d, hashVariant v blob = .ok d :=
    hashVariant_eq_ok fun h1 => size_of_standardVariant (h1 ▸ hv)
  exact ⟨d, by rw [hashStandard, hv]; exact hd⟩

theorem hashStandard_of_refused {e : BlobError} (h : checkStandard blob = .error e) :
    hashStandard blob = .error (.standard e) := by
  rw [hashStandard, checkStandard_eq_error_iff.mp h]

/-- The hash fails exactly where the check does, and with its error. -/
theorem hashStandard_eq_error_iff {r : Refusal} :
    hashStandard blob = .error r ↔ ∃ e, checkStandard blob = .error e ∧ r = .standard e := by
  constructor
  · intro hr
    cases hcheck : checkStandard blob with
    | ok u =>
      obtain ⟨d, hd⟩ := hashStandard_of_accepted hcheck
      rw [hd] at hr
      cases hr
    | error e =>
      rw [hashStandard_of_refused hcheck] at hr
      exact ⟨e, rfl, (Except.error.inj hr).symm⟩
  · rintro ⟨e, he, rfl⟩
    exact hashStandard_of_refused he

end ProofOfWork.Cryptonight

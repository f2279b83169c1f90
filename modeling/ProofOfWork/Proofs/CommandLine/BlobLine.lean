import ProofOfWork.CommandLine.Outcome
import ProofOfWork.Proofs.Cryptonight.Checked
import ProofOfWork.Proofs.Hex

/-!
# ProofOfWork.Proofs.CommandLine.BlobLine — the line that is printed for a blob

A blob text is a spelling of some bytes between blank characters (`readBlob_eq_ok_iff`).  Each of the
rules has its own check, made in the command, and what passes it is hashed without a refusal
(`blobDigest_cases`), so that the command prints the line of the digest exactly for the texts of blobs
that its rules admit, and fails for all others (`blobLines_cases`).
-/

namespace ProofOfWork.CommandLine

open Cryptonight Processor

/-! ### Blank characters around a text -/

theorem dropWhile_blank {before rest : List Char} (hbefore : ∀ c ∈ before, isBlank c)
    (hrest : ∀ c ∈ rest.head?, isBlank c = false) : (before ++ rest).dropWhile isBlank = rest := by
  rw [List.dropWhile_append_of_pos hbefore]
  cases rest with
  | nil => rfl
  | cons c rest => exact List.dropWhile_cons_of_neg (by rw [hrest c rfl]; decide)

/-- What is cut off is blank. -/
theorem exists_blank_around (text : String) :
    ∃ before after, text.toList = before ++ (trimBlank text).toList ++ after ∧
      ∀ c ∈ before ++ after, isBlank c := by
  let rest := text.toList.dropWhile isBlank
  have hfront : text.toList.takeWhile isBlank ++ rest = text.toList :=
    List.takeWhile_append_dropWhile
  have hback : (trimBlank text).toList ++ (rest.reverse.takeWhile isBlank).reverse = rest := by
    rw [trimBlank, String.toList_ofList, ← List.reverse_append, List.takeWhile_append_dropWhile,
      List.reverse_reverse]
  refine ⟨text.toList.takeWhile isBlank, (rest.reverse.takeWhile isBlank).reverse, ?_,
    fun c hc => ?_⟩
  · rw [List.append_assoc, hback, hfront]
  · rcases List.mem_append.mp hc with hc | hc
    · exact List.all_eq_true.mp List.all_takeWhile c hc
    · exact List.all_eq_true.mp List.all_takeWhile c (List.mem_reverse.mp hc)

/-- What is left starts and ends where the first and the last character stand that is not blank. -/
theorem toList_trimBlank {text : String} {before cs after : List Char}
    (htext : text.toList = before ++ cs ++ after) (hblank : ∀ c ∈ before ++ after, isBlank c)
    (hcs : ∀ c ∈ cs, isBlank c = false) (hne : cs ≠ []) : (trimBlank text).toList = cs := by
  have hbefore (c : Char) (hc : c ∈ before) : isBlank c :=
    hblank c (List.mem_append_left after hc)
  have hafter (c : Char) (hc : c ∈ after.reverse) : isBlank c :=
    hblank c (List.mem_append_right before (List.mem_reverse.mp hc))
  have hfront : text.toList.dropWhile isBlank = cs ++ after := by
    rw [htext, List.append_assoc]
    obtain ⟨x, xs, rfl⟩ := List.exists_cons_of_ne_nil hne
    exact dropWhile_blank hbefore fun c hc => by cases hc; exact hcs x List.mem_cons_self
  have hback : (cs ++ after).reverse.dropWhile isBlank = cs.reverse := by
    rw [List.reverse_append]
    exact dropWhile_blank hafter fun c hc => hcs c (List.mem_reverse.mp (List.mem_of_mem_head? hc))
  rw [trimBlank, String.toList_ofList, hfront, hback, List.reverse_reverse]

/-! ### The text of a blob -/

/-- Blank characters, the digits of a blob with at least one byte, and blank characters. -/
def BlobText (text : String) (blob : Bytes) : Prop :=
  blob ≠ #[] ∧ ∃ before cs after, text.toList = before ++ cs ++ after ∧
    (∀ c ∈ before ++ after, isBlank c) ∧ Hex.Spells cs blob

theorem isBlank_of_digit {c : Char} (h : (Hex.value? c).isSome) : isBlank c = false := by
  have hdigits : (Hex.lowerDigits ++ Hex.upperDigits).all (isBlank · == false) := by decide
  exact eq_of_beq (List.all_eq_true.mp hdigits c (Hex.mem_digits_of_value? h))

theorem exists_blobText_iff {text : String} :
    (∃ blob, BlobText text blob) ↔
      ∃ before cs after, text.toList = before ++ cs ++ after ∧ (∀ c ∈ before ++ after, isBlank c) ∧
        cs ≠ [] ∧ cs.length % 2 = 0 ∧ ∀ c ∈ cs, (Hex.value? c).isSome := by
  constructor
  · rintro ⟨blob, hne, before, cs, after, htext, hblank, hspells⟩
    obtain ⟨heven, hdigits⟩ := Hex.exists_spells_iff.mp ⟨blob, hspells⟩
    exact ⟨before, cs, after, htext, hblank, mt hspells.eq_nil_iff.mp hne, heven, hdigits⟩
  · rintro ⟨before, cs, after, htext, hblank, hne, heven, hdigits⟩
    obtain ⟨blob, hspells⟩ := Hex.exists_spells_iff.mpr ⟨heven, hdigits⟩
    exact ⟨blob, mt hspells.eq_nil_iff.mpr hne, before, cs, after, htext, hblank, hspells⟩

theorem readBlob_eq_ok_iff {text : String} {blob : Bytes} :
    readBlob text = .ok blob ↔ BlobText text blob := by
  rw [readBlob, bind_eq_ok_iff]
  constructor
  · rintro ⟨b, hb, hrest⟩
    rw [mapError_eq_ok_iff, Hex.decode_eq_ok_iff] at hb
    by_cases hempty : b = #[]
    · rw [if_pos hempty] at hrest
      cases hrest
    · rw [if_neg hempty] at hrest
      cases hrest
      obtain ⟨before, after, htext, hblank⟩ := exists_blank_around text
      exact ⟨hempty, before, _, after, htext, hblank, hb⟩
  · rintro ⟨hne, before, cs, after, htext, hblank, hspells⟩
    have htrim : (trimBlank text).toList = cs :=
      toList_trimBlank htext hblank (fun c hc => isBlank_of_digit (hspells.isSome_value? c hc))
        (mt hspells.eq_nil_iff.mp hne)
    refine ⟨blob, mapError_eq_ok_iff.mpr (Hex.decode_eq_ok_iff.mpr ?_), if_neg hne⟩
    rwa [htrim]

theorem readBlob_error_ne_refusal {text : String} {e : Failure} (h : readBlob text = .error e)
    (r : Refusal) : e ≠ .refusal r := by
  rw [readBlob] at h
  cases hdecode : Hex.decode (trimBlank text) with
  | error cause =>
    rw [hdecode] at h
    cases h
    nofun
  | ok blob =>
    rw [hdecode] at h
    change (if blob = #[] then _ else _) = _ at h
    by_cases hempty : blob = #[]
    · rw [if_pos hempty] at h
      cases h
      nofun
    · rw [if_neg hempty] at h
      cases h

/-! ### Rules -/

namespace BlobRules

/-- Which blobs are hashed under some rules. -/
def Admits : BlobRules → Bytes → Prop
  | .own, blob => checkStandard blob = .ok ()
  | .variant v, blob => v = .v1 → 43 ≤ blob.size
  | .fast, blob => checkFast blob = .ok ()

/-- The variant that the rules select for a blob. -/
def variantFor? : BlobRules → Bytes → Option Variant
  | .own, blob => blob[0]?.map Variant.ofMajor
  | .variant v, _ => some v
  | .fast, _ => some .v1

/-- A command line with which a blob is hashed under some rules. -/
def words (text : String) : BlobRules → List String
  | .own => ["cryptonight", "--", text]
  | .variant v => ["cryptonight", "--variant", toString v.number, "--", text]
  | .fast => ["cryptonight", "--fast", "--", text]

/-- The line is the digest, in lower-case digits, of a blob that the text spells and the rules
admit, under the variant that they select. -/
def IsAnswer (rules : BlobRules) (text line : String) : Prop :=
  ∃ blob v d, BlobText text blob ∧ rules.Admits blob ∧ rules.variantFor? blob = some v ∧
    hashVariant v blob = .ok d ∧ Hex.IsLowerHex line d.toArray

theorem IsAnswer.unique {rules : BlobRules} {text line line' : String}
    (h : rules.IsAnswer text line) (h' : rules.IsAnswer text line') : line = line' := by
  obtain ⟨blob, v, d, hblob, -, hv, hd, hline⟩ := h
  obtain ⟨blob', v', d', hblob', -, hv', hd', hline'⟩ := h'
  rw [← readBlob_eq_ok_iff] at hblob hblob'
  cases hblob.symm.trans hblob'
  cases hv.symm.trans hv'
  cases hd.symm.trans hd'
  rw [Hex.isLowerHex_iff.mp hline, Hex.isLowerHex_iff.mp hline']

theorem request_words (rules : BlobRules) (text : String) :
    request (rules.words text) = .ok ⟨false, .cryptonight text rules⟩ := by
  cases rules with
  | own => rfl
  | variant v => cases v <;> rfl
  | fast => rfl

end BlobRules

/-! ### The digest and its line -/

theorem variantFor?_own {blob : Bytes} {v : Variant} (h : standardVariant blob = .ok v) :
    BlobRules.variantFor? .own blob = some v := by
  rw [standardVariant] at h
  rw [BlobRules.variantFor?]
  cases hfirst : blob[0]? with
  | none =>
    rw [hfirst] at h
    cases h
  | some major =>
    rw [hfirst] at h
    dsimp only at h
    split at h
    · cases h
    · split at h
      · cases h
      · rw [Option.map_some, Except.ok.inj h]

section Digest

variable {f : Features} {rules : BlobRules} (hfast : rules = .fast → fastAvailable f)
include hfast

/-- The check of the rules covers all that the hash asks for. -/
theorem blobDigest_cases (blob : Bytes) :
    (rules.Admits blob ∧ ∃ v d, rules.variantFor? blob = some v ∧ hashVariant v blob = .ok d ∧
      blobDigest f blob rules = .ok d) ∨
    (¬ rules.Admits blob ∧ ∃ e, blobDigest f blob rules = .error e ∧ ∀ r, e ≠ .refusal r) := by
  cases rules with
  | own =>
    cases hcheck : checkStandard blob with
    | error e =>
      have hno : ¬ BlobRules.Admits .own blob := by
        intro hadmits
        cases hcheck.symm.trans hadmits
      refine .inr ⟨hno, .blob e, ?_, fun r hr => by cases hr⟩
      rw [blobDigest, hcheck]
      rfl
    | ok u =>
      obtain ⟨v, hv⟩ := checkStandard_eq_ok_iff.mp hcheck
      obtain ⟨d, hd⟩ : ∃ d, hashVariant v blob = .ok d :=
        hashVariant_eq_ok fun h1 => size_of_standardVariant (h1 ▸ hv)
      refine .inl ⟨hcheck, v, d, variantFor?_own hv, hd, ?_⟩
      -- The check has found the very variant that the hash goes on with.
      rw [blobDigest, hcheck, hashStandard, hv]
      dsimp only
      rw [hd]
      rfl
  | variant v =>
    by_cases hroom : v = .v1 → 43 ≤ blob.size
    · obtain ⟨d, hd⟩ : ∃ d, hashVariant v blob = .ok d := hashVariant_eq_ok hroom
      refine .inl ⟨hroom, v, d, rfl, hd, ?_⟩
      rw [blobDigest, if_neg fun h => Nat.not_lt_of_le (hroom h.1) h.2, hd]
      rfl
    · have hshort : v = .v1 ∧ blob.size < variant1Min := by
        rw [Classical.not_imp, Nat.not_le] at hroom
        exact hroom
      exact .inr ⟨hroom, .untweakable, if_pos hshort, fun r hr => by cases hr⟩
  | fast =>
    cases hcheck : checkFast blob with
    | error e =>
      have hno : ¬ BlobRules.Admits .fast blob := by
        intro hadmits
        cases hcheck.symm.trans hadmits
      refine .inr ⟨hno, .blob e, ?_, fun r hr => by cases hr⟩
      rw [blobDigest, hcheck]
      rfl
    | ok u =>
      have hroom : variant1Min ≤ blob.size := Nat.le_trans (by decide) (size_of_checkFast hcheck).1
      refine .inl ⟨hcheck, .v1, hashV1 blob hroom, rfl, dif_pos hroom, ?_⟩
      rw [blobDigest, hcheck, hashFast_of_checkFast hcheck hroom, hfast rfl]
      rfl

theorem blobDigest_of_admits {blob : Bytes} (h : rules.Admits blob) :
    ∃ v d, rules.variantFor? blob = some v ∧ hashVariant v blob = .ok d ∧
      blobDigest f blob rules = .ok d := by
  rcases blobDigest_cases hfast blob with ⟨-, hdigest⟩ | ⟨hno, -⟩
  · exact hdigest
  · exact absurd h hno

theorem blobLines_cases (text : String) :
    (∃ line, rules.IsAnswer text line ∧ blobLines f text rules = .ok [line]) ∨
    ((¬ ∃ blob, BlobText text blob ∧ rules.Admits blob) ∧
      ∃ e, blobLines f text rules = .error e ∧ ∀ r, e ≠ .refusal r) := by
  cases htext : readBlob text with
  | error e =>
    refine .inr ⟨?_, e, by rw [blobLines, htext]; rfl, readBlob_error_ne_refusal htext⟩
    rintro ⟨blob, hblob, -⟩
    cases htext.symm.trans (readBlob_eq_ok_iff.mpr hblob)
  | ok blob =>
    have hblob := readBlob_eq_ok_iff.mp htext
    have hlines : blobLines f text rules = (do
        let d ← blobDigest f blob rules
        return [Hex.encode d.toArray]) := by
      rw [blobLines, htext]
      rfl
    rcases blobDigest_cases hfast blob with ⟨hadmits, v, d, hv, hd, hdigest⟩ | ⟨hno, e, he, hr⟩
    · refine .inl ⟨Hex.encode d.toArray, ⟨blob, v, d, hblob, hadmits, hv, hd,
        Hex.isLowerHex_iff.mpr rfl⟩, ?_⟩
      rw [hlines, hdigest]
      rfl
    · refine .inr ⟨?_, e, by rw [hlines, he]; rfl, hr⟩
      rintro ⟨blob', hblob', hadmits⟩
      have hsame := htext.symm.trans (readBlob_eq_ok_iff.mpr hblob')
      exact hno (Except.ok.inj hsame ▸ hadmits)

theorem exists_isAnswer_iff {text : String} :
    (∃ line, rules.IsAnswer text line) ↔ ∃ blob, BlobText text blob ∧ rules.Admits blob := by
  constructor
  · rintro ⟨line, blob, v, d, hblob, hadmits, -⟩
    exact ⟨blob, hblob, hadmits⟩
  · intro h
    rcases blobLines_cases hfast text with ⟨line, hline, -⟩ | ⟨hno, -⟩
    · exact ⟨line, hline⟩
    · exact absurd h hno

theorem blobLines_eq_ok_iff {text : String} {lines : List String} :
    blobLines f text rules = .ok lines ↔ ∃ line, lines = [line] ∧ rules.IsAnswer text line := by
  rcases blobLines_cases hfast text with ⟨line, hline, hok⟩ | ⟨hno, e, he, -⟩
  · rw [hok]
    constructor
    · intro h
      cases h
      exact ⟨line, rfl, hline⟩
    · rintro ⟨line', rfl, hline'⟩
      rw [hline.unique hline']
  · rw [he]
    refine ⟨nofun, ?_⟩
    rintro ⟨line, -, blob, v, d, hblob, hadmits, -⟩
    exact absurd ⟨blob, hblob, hadmits⟩ hno

end Digest

/-- The three ways to variant 1 lead to one line. -/
theorem isAnswer_of_checkFast {text : String} {blob : Bytes} (hblob : BlobText text blob)
    (hcheck : checkFast blob = .ok ()) :
    ∃ line, ∀ form ∈ [BlobRules.own, .variant .v1, .fast], form.IsAnswer text line := by
  have hroom : variant1Min ≤ blob.size := Nat.le_trans (by decide) (size_of_checkFast hcheck).1
  have hv := standardVariant_of_checkFast hcheck
  have hdigest : hashVariant .v1 blob = .ok (hashV1 blob hroom) := dif_pos hroom
  have hline := Hex.isLowerHex_iff.mpr (Eq.refl (Hex.encode (hashV1 blob hroom).toArray))
  refine ⟨Hex.encode (hashV1 blob hroom).toArray, fun form hform => ?_⟩
  simp only [List.mem_cons, List.not_mem_nil, or_false] at hform
  rcases hform with rfl | rfl | rfl
  · exact ⟨blob, .v1, _, hblob, checkStandard_eq_ok_iff.mpr ⟨_, hv⟩, variantFor?_own hv, hdigest,
      hline⟩
  · exact ⟨blob, .v1, _, hblob, fun _ => hroom, rfl, hdigest, hline⟩
  · exact ⟨blob, .v1, _, hblob, hcheck, rfl, hdigest, hline⟩

/-! ### The command -/

/-- Neither the notes nor the report of a run is part of its output. -/
theorem run_of_request (f : Features) {words : List String} {verbose : Bool} {text : String}
    {rules : BlobRules} (h : request words = .ok ⟨verbose, .cryptonight text rules⟩) :
    run f words = match blobLines f text rules with
      | .ok lines => { exit := 0, output := unlines lines }
      | .error e => { exit := 1, report := e.report } := by
  rw [run, h]
  cases verbose <;> rfl

theorem unlines_singleton (line : String) : unlines [line] = line ++ "\n" := by
  simp [unlines, String.join]

/-- On a processor that has what the rules need, the command prints one line for the text of a blob
that its rules admit, the digest in lower-case digits under the variant that they select, and fails
for every other text with nothing printed.  No failure is a refusal of the hash, and no access or
operation of the hash itself faults.  Every text and all rules can be asked for.  Where a blob passes
the fast check, the rules of its own, of variant 1 and of the fast path have the same line. -/
theorem blob_line_exact (f : Features) (rules : BlobRules)
    (hfast : rules = .fast → fastAvailable f = true) :
    (∀ text, (∃ blob, BlobText text blob) ↔
      ∃ before cs after, text.toList = before ++ cs ++ after ∧ (∀ c ∈ before ++ after, isBlank c) ∧
        cs ≠ [] ∧ cs.length % 2 = 0 ∧ ∀ c ∈ cs, (Hex.value? c).isSome) ∧
    (∀ text, (∃ line, rules.IsAnswer text line) ↔ ∃ blob, BlobText text blob ∧ rules.Admits blob) ∧
    (∀ text lines, blobLines f text rules = .ok lines ↔
      ∃ line, lines = [line] ∧ rules.IsAnswer text line) ∧
    (∀ text e, blobLines f text rules = .error e → ∀ r, e ≠ .refusal r) ∧
    (∀ blob v, rules.Admits blob → rules.variantFor? blob = some v →
      ∃ d, Checked.hash v blob = .ok d) ∧
    (∀ text, request (rules.words text) = .ok ⟨false, .cryptonight text rules⟩) ∧
    (∀ words verbose text, request words = .ok ⟨verbose, .cryptonight text rules⟩ →
      (∀ line, rules.IsAnswer text line → run f words = { exit := 0, output := line ++ "\n" }) ∧
      ((¬ ∃ line, rules.IsAnswer text line) →
        ∃ e, blobLines f text rules = .error e ∧
          run f words = { exit := 1, report := e.report })) ∧
    ∀ text blob, BlobText text blob → checkFast blob = .ok () → ∃ line,
      ∀ g, fastAvailable g = true → ∀ form ∈ [BlobRules.own, .variant .v1, .fast],
        blobLines g text form = .ok [line] := by
  refine ⟨fun text => exists_blobText_iff, fun text => exists_isAnswer_iff hfast,
    fun text lines => blobLines_eq_ok_iff hfast, fun text e he => ?_, fun blob v hadmits hv => ?_,
    rules.request_words, fun words verbose text hwords => ⟨fun line hline => ?_, fun hno => ?_⟩,
    fun text blob hblob hcheck => ?_⟩
  · rcases blobLines_cases hfast text with ⟨line, -, hok⟩ | ⟨-, e', he', hr⟩
    · cases he.symm.trans hok
    · cases he.symm.trans he'
      exact hr
  · obtain ⟨v', d, hv', hd, -⟩ := blobDigest_of_admits hfast hadmits
    cases hv.symm.trans hv'
    exact ⟨d, Checked.hash_eq_ok_iff.mpr hd⟩
  · rw [run_of_request f hwords, (blobLines_eq_ok_iff hfast).mpr ⟨line, rfl, hline⟩]
    dsimp only
    rw [unlines_singleton]
  · rcases blobLines_cases hfast text with ⟨line, hline, -⟩ | ⟨-, e, he, -⟩
    · exact absurd ⟨line, hline⟩ hno
    · exact ⟨e, he, by rw [run_of_request f hwords, he]⟩
  · obtain ⟨line, hline⟩ := isAnswer_of_checkFast hblob hcheck
    exact ⟨line, fun g hg form hform =>
      (blobLines_eq_ok_iff fun _ => hg).mpr ⟨line, rfl, hline form hform⟩⟩

/-- A blob of version 7 in upper-case digits between a blank and a line feed, and a text with an odd
number of digits, both for the fast path. -/
theorem blob_line_exact_shortest :
    let digits : List Char := ['0', '7'] ++ List.replicate 150 'A'
    let text : String := String.ofList (' ' :: digits ++ ['\n'])
    let odd : String := "070"
    let blob : Bytes := #[7] ++ Array.replicate 75 0xaa
    fastAvailable .baseline = true ∧ BlobText text blob ∧ checkFast blob = .ok () ∧
      (∃ d, Checked.hash .v1 blob = .ok d) ∧
      (∃ line, BlobRules.fast.IsAnswer text line ∧
        run .baseline (BlobRules.fast.words text) = { exit := 0, output := line ++ "\n" }) ∧
      (∃ line, ∀ form ∈ [BlobRules.own, .variant .v1, .fast],
        blobLines .baseline text form = .ok [line]) ∧
      ∃ e, blobLines .baseline odd .fast = .error e ∧ (∀ r, e ≠ .refusal r) ∧
        run .baseline (BlobRules.fast.words odd) = { exit := 1, report := e.report } := by
  intro digits text odd blob
  have hfast : fastAvailable .baseline = true := by decide
  have hblob : BlobText text blob := by
    have hblank : ([' '] ++ ['\n']).all isBlank := by decide
    refine ⟨by decide, [' '], digits, ['\n'], ?_, List.all_eq_true.mp hblank, ?_⟩
    · rw [String.toList_ofList]
      rfl
    · rw [Hex.Spells]
      rfl
  have hcheck : checkFast blob = .ok () := rfl
  have hodd : readBlob odd = .error (.blobText .oddLength) := by
    simp only [odd]
    rfl
  obtain ⟨-, haccept, -, herror, hchecked, hwords, hrun, hforms⟩ :=
    blob_line_exact .baseline .fast fun _ => hfast
  obtain ⟨line, hline⟩ := (haccept text).mpr ⟨blob, hblob, hcheck⟩
  have hno : ¬ ∃ line, BlobRules.fast.IsAnswer odd line := by
    rw [haccept]
    rintro ⟨blob', hblob', -⟩
    cases hodd.symm.trans (readBlob_eq_ok_iff.mpr hblob')
  obtain ⟨e, he, hfailed⟩ := (hrun _ _ odd (hwords odd)).2 hno
  exact ⟨hfast, hblob, hcheck, hchecked blob .v1 hcheck rfl,
    ⟨line, hline, (hrun _ _ text (hwords text)).1 line hline⟩,
    (hforms text blob hblob hcheck).imp fun _ h => h .baseline hfast, e, he, herror odd e he,
    hfailed⟩

end ProofOfWork.CommandLine

import ProofOfWork.Proofs.Cryptonight.Admission
import ProofOfWork.Proofs.Sha256.Digests
import ProofOfWork.Proofs.Traversal

/-!
# ProofOfWork.Proofs.Batch — a batch is its members one by one

A list is cut into groups that put together are the list (`flatten_groupsOf`).  A group that fills
the lanes goes through the engine, where its members are the messages of the lanes, one chunk long;
a shorter one does not.  Either way the group's digests are those of its members
(`groupDigests_eq`), and then so are the batch's.
-/

namespace ProofOfWork

/-! ### Kinds -/

open Lanes Processor

theorem Processor.Features.require_eq_ok {f : Features} {wanted : List Feature}
    (h : ∀ x ∈ wanted, f.has x) : f.require wanted = .ok () := by
  have hnone : wanted.find? (fun x => !f.has x) = none :=
    List.find?_eq_none.mpr fun x hx => by rw [h x hx]; decide
  rw [Features.require, hnone]

namespace Kind

variable {f : Features} {k : Kind}

theorem require_eq_ok (h : k.isSupported f) : k.require f = .ok () := by
  refine Features.require_eq_ok fun x hx => ?_
  rw [isSupported, Option.mem_toList.mp hx, Option.all_some] at h
  exact h

theorem require_eq_error (h : ¬ k.isSupported f) :
    ∃ x, k.needs = some x ∧ k.require f = .error ⟨x⟩ := by
  rw [isSupported] at h
  cases hneeds : k.needs with
  | none => exact absurd (by rw [hneeds, Option.all_none]) h
  | some x =>
    rw [hneeds, Option.all_some] at h
    refine ⟨x, rfl, ?_⟩
    simp [require, Features.require, hneeds, h]

theorem best_isSupported (f : Features) : (best f).isSupported f := by
  rw [best]
  cases hfound : [avx2, sse2].find? fun k => k.isSupported f with
  | none => rfl
  | some k =>
    have hk := List.find?_some hfound
    exact hk

end Kind

namespace Sha256

/-! ### Groups -/

section Groups

variable {α : Type} {n : Nat} (hn : 0 < n)

theorem flatten_groupsOf (l : List α) : (groupsOf n hn l).flatten = l := by
  fun_induction groupsOf n hn l with
  | case1 => rfl
  | case2 l h ih => rw [List.flatten_cons, ih, List.take_append_drop]

theorem length_le_of_mem_groupsOf {l group : List α} (h : group ∈ groupsOf n hn l) :
    group.length ≤ n := by
  fun_induction groupsOf n hn l with
  | case1 => cases h
  | case2 l _ ih =>
    obtain rfl | hrest := List.mem_cons.mp h
    · exact List.length_take_le n l
    · exact ih hrest

/-- Going through the groups is going through the list. -/
theorem mapM_groupsOf {β ε : Type} (f : α → Except ε β) (l : List α) :
    ((groupsOf n hn l).mapM (List.mapM f)).map List.flatten = l.mapM f := by
  fun_induction groupsOf n hn l with
  | case1 => rfl
  | case2 l _ ih =>
    have happend : (l.take n ++ l.drop n).mapM f = _ := List.mapM_append
    rw [List.take_append_drop] at happend
    rw [happend, ← ih, List.mapM_cons]
    cases (l.take n).mapM f with
    | error e => rfl
    | ok bs =>
      cases (groupsOf n hn (l.drop n)).mapM (List.mapM f) with
      | error e => rfl
      | ok rest => rfl

end Groups

/-! ### One block -/

theorem words32_block (b : Block) :
    words32 .big (n := 16) b = Vector.ofFn (Standard.wordAt b) := by
  apply Vector.ext
  intro t ht
  have hwhole : b.toArray.extract 0 (0 + 64) = b.toArray := by simp
  have hword := wordAt?_of_block hwhole ⟨t, ht⟩
  have hin : 0 + 4 * t + 4 ≤ b.toArray.size := by rw [Vector.size_toArray]; omega
  rw [wordAt?, dif_pos hin, Option.some.injEq] at hword
  rw [Vector.getElem_ofFn, ← hword, words32, Vector.getElem_ofFn]
  simp only [Nat.zero_add]
  rfl

/-- A group of the plain unit is its word. -/
theorem map_lane_scalarUnit {n : Nat} (v : Vector UInt32 n) :
    v.map (scalarUnit.lane (0 : Fin 1)) = v := Vector.map_id v

theorem blockDigest_eq (b : Block) :
    blockDigest b = Standard.serialize (Standard.hashValue [b]) := by
  have hstart := lane_start scalarUnit_lanewise (0 : Fin 1)
  have hcompress := lane_compress scalarUnit_lanewise (0 : Fin 1)
    ((map_lane_scalarUnit _).trans (words32_block b)) (start scalarUnit)
  rw [hstart] at hcompress
  exact (Standard.bytesOfWords32_eq_serialize _).trans
    (congrArg Standard.serialize ((map_lane_scalarUnit _).symm.trans hcompress))

/-- The engine on one lane, with room for the digest alone, has the digest of the block. -/
theorem hashChunks_block (b : Block) :
    hashChunks scalarUnit (Array.replicate 32 0) b.toArray 1 = .ok (blockDigest b).toArray := by
  have hroom : Sufficient 1 (Array.replicate 32 0) b.toArray 1 :=
    ⟨by simp, by simp, by simp [Addressable, UInt64.size], by simp [Addressable, UInt64.size]⟩
  have hblocks : Bytes.blocks (b.toArray.extract 0 (64 * 1)) 64 = [b] := by
    have hjoined : joined [b] ++ #[] = b.toArray := by simp [joined]
    have hcut := blocks_extract_joined [b] #[]
    rwa [hjoined] at hcut
  have hrest : (Array.replicate 32 (0 : UInt8)).extract 32 32 = #[] := rfl
  rw [hashChunks_scalar hroom, hblocks, ← blockDigest_eq, Array.size_replicate, hrest,
    Array.append_empty]

/-! ### One group -/

section Group

variable {group : List Block}

/-- In one chunk the message of a lane is the lane's block. -/
theorem blocks_laneStream_joined {i : Nat} (hi : i < group.length) :
    (laneStream group.length (joined group) 1 i).blocks 64 = [group[i]] := by
  have hsize : 64 * group.length * (0 + 1) ≤ (joined group).size := by
    rw [size_joined]
    omega
  obtain ⟨b, hb, hblocks⟩ := blocks_laneStream_succ hi hsize
  have hcut : (joined group).blocks 64 = group := by
    have hextract := blocks_extract_joined group #[]
    rwa [Array.append_empty, ← size_joined, Array.extract_size] at hextract
  have hget := Bytes.toArray_getElem_blocks (joined group) (by rwa [hcut])
  have hblock : b = group[i] := by
    apply Vector.toArray_inj.mp
    rw [← hb, ← List.getElem_of_eq hcut (by rwa [hcut]), hget]
    congr 1 <;> omega
  rw [hblocks, hblock]
  exact congrArg (· ++ [group[i]]) (Bytes.blocks_empty 64)

variable {k : Kind}

theorem sufficient_full (h : group.length = k.way) :
    Sufficient k.way (Array.replicate (32 * k.way) 0) (joined group) 1 := by
  have hway : k.way ≤ 16 := by cases k <;> decide
  refine ⟨?_, ?_, ?_, ?_⟩
  · rw [size_joined, h, Nat.mul_one]
  · rw [Array.size_replicate]
  · rw [Addressable, size_joined, h, UInt64.size]
    omega
  · rw [Addressable, Array.size_replicate, UInt64.size]
    omega

/-- A block in every lane. -/
theorem hashChunks_full (h : group.length = k.way) :
    ∃ d, hashChunks k.unit (Array.replicate (32 * k.way) 0) (joined group) 1 = .ok d ∧
      d.blocks 32 = group.map blockDigest := by
  obtain ⟨d, hd, hsize, hdigest, -⟩ := hashChunks_spec (u := k.unit) k.backend.lanewise
    (sufficient_full h)
  rw [Array.size_replicate] at hsize
  refine ⟨d, hd, ?_⟩
  apply List.ext_getElem
  · rw [Bytes.length_blocks, hsize, List.length_map, h, Nat.mul_div_cancel_left _ (by decide)]
  · intro i _ hi
    rw [List.length_map] at hi
    have hlane : i < k.way := by omega
    -- the bytes at `32 * i` are the digest of lane `i`, whose whole message is the block `i`
    have hstream : (laneStream k.way (joined group) 1 i).blocks 64 = [group[i]] := by
      rw [← h]
      exact blocks_laneStream_joined hi
    have hserialized := hdigest ⟨i, hlane⟩
    rw [Nat.mul_comm] at hserialized
    apply Vector.toArray_inj.mp
    rw [Bytes.toArray_getElem_blocks, hserialized, List.getElem_map, blockDigest_eq, ← hstream]
    rfl

theorem groupDigests_eq (h : group.length ≤ k.way) :
    groupDigests k group = .ok (group.map blockDigest) := by
  by_cases hshort : group.length < k.way
  · rw [groupDigests, if_pos hshort]
  · have hfull : group.length = k.way := Nat.le_antisymm h (Nat.le_of_not_lt hshort)
    obtain ⟨d, hd, hdigests⟩ := hashChunks_full hfull
    rw [groupDigests, if_neg hshort, ← hdigests]
    -- the model joins the blocks as `joined` does
    change (hashChunks k.unit _ (joined group) 1 >>= fun out => pure (Bytes.blocks out 32)) = _
    rw [hd]
    rfl

end Group

/-! ### Batches -/

theorem digestsWith_eq_ok {f : Features} {k : Kind} (h : k.isSupported f) (blocks : List Block) :
    digestsWith f k blocks = .ok (blocks.map blockDigest) := by
  have hgroups : (groupsOf k.way k.way_pos blocks).mapM (groupDigests k)
      = .ok ((groupsOf k.way k.way_pos blocks).map (List.map blockDigest)) :=
    mapM_eq_ok fun group hgroup => groupDigests_eq (length_le_of_mem_groupsOf _ hgroup)
  rw [digestsWith, Kind.require_eq_ok h, hgroups]
  change Except.ok _ = _
  rw [← List.map_flatten, flatten_groupsOf]

theorem digestsWith_eq_error {f : Features} {k : Kind} (h : ¬ k.isSupported f)
    (blocks : List Block) :
    ∃ x, k.needs = some x ∧ digestsWith f k blocks = .error (.unavailable ⟨x⟩) := by
  obtain ⟨x, hneeds, hrequire⟩ := Kind.require_eq_error h
  refine ⟨x, hneeds, ?_⟩
  rw [digestsWith, hrequire]
  rfl

/-- Nothing stops the engine on the best kind. -/
theorem tryDigests_eq_ok (f : Features) (blocks : List Block) :
    tryDigests f blocks = .ok (blocks.map blockDigest) := by
  rw [tryDigests, digestsWith_eq_ok (Kind.best_isSupported f)]

theorem digests_eq (f : Features) (blocks : List Block) :
    digests f blocks = blocks.map blockDigest := by
  rw [digests, tryDigests_eq_ok]
  rfl

end Sha256

/-! ### Blobs -/

namespace Cryptonight

theorem hashMany_eq_error_iff {blobs : List Bytes} :
    (∃ r, hashMany blobs = .error r) ↔ ∃ blob ∈ blobs, ∃ e, checkStandard blob = .error e := by
  rw [hashMany, mapM_eq_error_iff]
  refine exists_congr fun blob => and_congr_right fun _ => ⟨?_, ?_⟩
  · rintro ⟨r, hr⟩
    obtain ⟨e, he, -⟩ := hashStandard_eq_error_iff.mp hr
    exact ⟨e, he⟩
  · rintro ⟨e, he⟩
    exact ⟨_, hashStandard_of_refused he⟩

theorem hashMany_eq_ok {blobs : List Bytes} (h : ∀ blob ∈ blobs, checkStandard blob = .ok ()) :
    ∃ ds, hashMany blobs = .ok ds ∧ blobs.map hashStandard = ds.map .ok := by
  cases hmany : hashMany blobs with
  | error r =>
    obtain ⟨blob, hmem, e, he⟩ := hashMany_eq_error_iff.mp ⟨r, hmany⟩
    rw [h blob hmem] at he
    cases he
  | ok ds => exact ⟨ds, rfl, mapM_eq_ok_iff.mp hmany⟩

end Cryptonight

/-! ### Order and number -/

open Sha256 Cryptonight

/-- Batching neither changes, loses, doubles nor moves a result.  On every kind that the processor
supports, and on whatever kind is best or stands in for it, the digests of blocks are those of the
blocks one by one, which is the engine on one lane; and many blobs, in groups of any size, have the
digests of the blobs in order, unless one of them is refused. -/
theorem batch_one_by_one :
    (∀ (f : Features) (k : Kind), k.isSupported f → ∀ blocks,
      digestsWith f k blocks = .ok (blocks.map blockDigest)) ∧
    (∀ (f : Features) (k : Kind), ¬ k.isSupported f → ∀ blocks, ∃ x, k.needs = some x ∧
      digestsWith f k blocks = .error (.unavailable ⟨x⟩)) ∧
    (∀ (f : Features) (k : Kind) blocks,
      (digestsWith f k blocks).toOption.getD (blocks.map blockDigest) = blocks.map blockDigest) ∧
    (∀ f blocks, tryDigests f blocks = .ok (blocks.map blockDigest) ∧
      digests f blocks = blocks.map blockDigest) ∧
    (∀ b : Block,
      hashChunks scalarUnit (Array.replicate 32 0) b.toArray 1 = .ok (blockDigest b).toArray) ∧
    (∀ blobs, (∀ blob ∈ blobs, checkStandard blob = .ok ()) →
      ∃ ds, hashMany blobs = .ok ds ∧ blobs.map hashStandard = ds.map .ok) ∧
    (∀ blobs, (∃ r, hashMany blobs = .error r) ↔
      ∃ blob ∈ blobs, ∃ e, checkStandard blob = .error e) ∧
    ∀ n hn blobs,
      ((groupsOf n hn blobs).mapM (List.mapM hashStandard)).map List.flatten = hashMany blobs := by
  refine ⟨fun f k h => digestsWith_eq_ok h, fun f k h => digestsWith_eq_error h,
    fun f k blocks => ?_, fun f blocks => ⟨tryDigests_eq_ok f blocks, digests_eq f blocks⟩,
    hashChunks_block, fun blobs => hashMany_eq_ok,
    fun blobs => hashMany_eq_error_iff, fun n hn => mapM_groupsOf hn hashStandard⟩
  by_cases h : k.isSupported f
  · rw [digestsWith_eq_ok h]
    rfl
  · obtain ⟨x, -, herror⟩ := digestsWith_eq_error h blocks
    rw [herror]
    rfl

/-- Nine blocks, of which eight fill a register's lanes, and a blob of each admitted variant with and
without a refused one. -/
theorem batch_one_by_one_nine :
    let f : Features := .ofList [.avx2]
    let blocks : List Block := (List.range 9).map fun i => Vector.replicate 64 i.toUInt8
    let blobs : List Bytes := [#[6], Array.replicate 43 7, #[8]]
    Kind.avx2.isSupported f ∧ digestsWith f .avx2 blocks = .ok (blocks.map blockDigest) ∧
      ¬ Kind.sse2.isSupported f ∧ digestsWith f .sse2 blocks = .error (.unavailable ⟨.sse2⟩) ∧
      (∀ blob ∈ blobs, checkStandard blob = .ok ()) ∧
      (∃ ds, hashMany blobs = .ok ds ∧ blobs.map hashStandard = ds.map .ok) ∧
      ∃ r, hashMany (#[7] :: blobs) = .error r := by
  intro f blocks blobs
  obtain ⟨hsupported, hunsupported, -, -, -, haccepted, hrefused, -⟩ := batch_one_by_one
  have havx2 : Kind.avx2.isSupported f := by decide
  have hsse2 : ¬ Kind.sse2.isSupported f := by decide
  have hblobs : ∀ blob ∈ blobs, checkStandard blob = .ok () := by
    simp only [blobs, List.forall_mem_cons]
    exact ⟨rfl, rfl, rfl, nofun⟩
  obtain ⟨x, hneeds, herror⟩ := hunsupported f .sse2 hsse2 blocks
  cases hneeds
  refine ⟨havx2, hsupported f .avx2 havx2 blocks, hsse2, herror, hblobs, haccepted blobs hblobs, ?_⟩
  exact (hrefused (#[7] :: blobs)).mpr ⟨#[7], List.mem_cons_self, .tooShort 1 43, rfl⟩

end ProofOfWork

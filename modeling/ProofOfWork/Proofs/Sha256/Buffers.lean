import ProofOfWork.Proofs.Batch
import ProofOfWork.Proofs.Lanes.InPlace

/-!
# ProofOfWork.Proofs.Sha256.Buffers — the engine on buffers of any length

Written in place, the digests go over the buffer a word at a time, and a save that fails would leave
those before it written.  The two checks the engine makes first are enough for all the others: once
they have passed, no chunk is too short and no span is outside (`InnerChecks`), so that a run in
place either writes everything or, stopped by the checks, nothing (`run_hashInPlace`).
-/

namespace ProofOfWork.Sha256

open Lanes Processor

variable (u : LaneUnit)

/-! ### The engine in place -/

/-- Full chunks from the front of the blocks, `count` of them if there are as many. -/
def chunksTaken (blocks : Bytes) (count : Nat) : List Bytes :=
  ((blocks.blocks (64 * u.way)).take count).map Vector.toArray

/-- Where the words `j` of all lanes are written, in machine words. -/
def machineWordSpan (j : Fin 8) : MachineSpan := ⟨32, 4 * j.val.toUInt64⟩

def writeWordsInPlace (s : State u) (js : List (Fin 8)) : OnBuffer Unit :=
  forM js fun j => saveInPlace u .big (s.get j) (machineWordSpan j)

/-- The engine with its saves done in place, after the check of the blocks, the check of the buffer
and the chunks. -/
def hashInPlace (blocks : Bytes) (count : Nat) : EStateM EngineError Bytes Unit := do
  unless (checkedMul count (64 * u.way)).any (· ≤ blocks.size) do
    throw (.shortBlocks blocks.size count (64 * u.way))
  let out ← get
  unless 32 * u.way ≤ out.size do
    throw (.shortDigests out.size (32 * u.way))
  let s ← MonadExcept.ofExcept ((chunksTaken u blocks count).foldlM (processBlock u) (start u))
  EStateM.adaptExcept .lanes (writeWordsInPlace u s (List.finRange 8))

/-- The engine in place on the unit of a kind. -/
def hashInPlaceWith (f : Features) (k : Kind) (blocks : Bytes) (count : Nat) :
    EStateM BatchError Bytes Unit := do
  MonadExcept.ofExcept ((k.require f).mapError .unavailable)
  EStateM.adaptExcept .engine (hashInPlace k.unit blocks count)

/-! ### Chunks -/

/-- The engine goes through its chunks in order. -/
theorem processChunks_eq_foldlM (blocks : Bytes) (count : Nat) : processChunks u blocks count
    = ((List.range count).map (chunkAt u blocks)).foldlM (processBlock u) (start u) := by
  rw [List.foldlM_map]
  rfl

section Chunks

variable {u} {blocks : Bytes} {count : Nat} (h : 64 * u.way * count ≤ blocks.size)
include h

theorem chunksTaken_eq (hw : 0 < u.way) :
    chunksTaken u blocks count = (List.range count).map (chunkAt u blocks) := by
  have hcount : count ≤ (blocks.blocks (64 * u.way)).length := by
    rw [Bytes.length_blocks, Nat.le_div_iff_mul_le (by omega), Nat.mul_comm]
    exact h
  apply List.ext_getElem
  · simp [chunksTaken, hcount]
  · intro i _ _
    simp [chunksTaken, Bytes.toArray_getElem_blocks, chunkAt]

/-- The chunks that are taken are those the engine goes through. -/
theorem foldlM_chunksTaken (hw : 0 < u.way) :
    (chunksTaken u blocks count).foldlM (processBlock u) (start u)
      = processChunks u blocks count := by
  rw [chunksTaken_eq h hw, processChunks_eq_foldlM]

end Chunks

/-! ### The checks inside -/

/-- Neither a chunk nor a word is refused after the two checks of the engine. -/
structure InnerChecks (out blocks : Bytes) (count : Nat) : Prop where
  number : (chunksTaken u blocks count).length = count
  chunk : ∀ chunk ∈ chunksTaken u blocks count, 64 * u.way ≤ chunk.size
  load : ∀ chunk ∈ chunksTaken u blocks count, ∀ t : Fin 16, u.Admits ⟨64, 4 * t⟩ chunk.size
  save : ∀ j : Fin 8, u.Admits (wordSpan j) out.size

theorem innerChecks_of_sufficient {u : LaneUnit} (hu : u.Lanewise) {out blocks : Bytes}
    {count : Nat} (h : Sufficient u.way out blocks count) : InnerChecks u out blocks count := by
  obtain ⟨hchunks, hdigests, hb, ho⟩ := h
  have hw := hu.way_pos
  have htaken := chunksTaken_eq hchunks hw
  have hchunk (chunk : Bytes) (hmem : chunk ∈ chunksTaken u blocks count) :
      chunk.size = 64 * u.way ∧ Addressable chunk := by
    rw [htaken, List.mem_map] at hmem
    obtain ⟨i, hi, rfl⟩ := hmem
    have hle : 64 * u.way * (i + 1) ≤ blocks.size :=
      Nat.le_trans (Nat.mul_le_mul_left _ (List.mem_range.mp hi)) hchunks
    obtain ⟨hsize, haddressable, -⟩ := chunkAt_spec hle hb
    exact ⟨hsize, haddressable⟩
  refine ⟨?_, fun chunk hmem => Nat.le_of_eq (hchunk chunk hmem).1.symm, fun chunk hmem t => ?_,
    fun j => ?_⟩
  · rw [htaken, List.length_map, List.length_range]
  · obtain ⟨hsize, haddressable⟩ := hchunk chunk hmem
    have ht := t.isLt
    rw [LaneUnit.admits_iff hw haddressable, hsize]
    simp only [Span.address]
    omega
  · exact LaneUnit.admits_of_inside hw (inside_wordSpan hdigests j) ho

/-! ### Buffers that are too short -/

section Short

variable {u} {out blocks : Bytes} {count : Nat} (hb : Addressable blocks)
include hb

theorem hashChunks_of_short_blocks (h : blocks.size < 64 * u.way * count) :
    hashChunks u out blocks count = .error (.shortBlocks blocks.size count (64 * u.way)) := by
  have hcheck := mt (blockCheck_iff hb).mp (Nat.not_le_of_lt h)
  rw [hashChunks, if_neg hcheck]
  rfl

theorem run_hashInPlace_of_short_blocks (h : blocks.size < 64 * u.way * count) :
    (hashInPlace u blocks count).run out
      = .error (.shortBlocks blocks.size count (64 * u.way)) out := by
  have hcheck := mt (blockCheck_iff hb).mp (Nat.not_le_of_lt h)
  rw [hashInPlace, if_neg hcheck]
  rfl

variable (h : 64 * u.way * count ≤ blocks.size) (hshort : out.size < 32 * u.way)
include h hshort

theorem hashChunks_of_short_digests :
    hashChunks u out blocks count = .error (.shortDigests out.size (32 * u.way)) := by
  rw [hashChunks, if_pos ((blockCheck_iff hb).mpr h), if_neg (Nat.not_le_of_lt hshort)]
  rfl

theorem run_hashInPlace_of_short_digests :
    (hashInPlace u blocks count).run out = .error (.shortDigests out.size (32 * u.way)) out := by
  rw [hashInPlace, if_pos ((blockCheck_iff hb).mpr h)]
  change EStateM.run (if 32 * u.way ≤ out.size then _ else _) out = _
  rw [if_neg (Nat.not_le_of_lt hshort)]
  rfl

end Short

/-! ### Runs in place -/

theorem span_machineWordSpan (j : Fin 8) : (machineWordSpan j).span = wordSpan j := by
  have hj := j.isLt
  simp [machineWordSpan, MachineSpan.span, wordSpan]
  omega

section Write

variable {u} (hu : u.Lanewise) (hg : u.guarded = true ∨ u.way = 1) {out : Bytes}
  (ho : Addressable out) (h : 32 * u.way ≤ out.size)
include hu hg ho h

/-- Where there is room for the digests every save in place succeeds, and they leave what the digests
written at once leave. -/
theorem run_writeWordsInPlace (s : State u) (js : List (Fin 8)) :
    ∃ after, js.foldlM (fun out j => u.save .big (s.get j) (wordSpan j) out) out = .ok after ∧
      (writeWordsInPlace u s js).run out = .ok () after := by
  induction js generalizing out with
  | nil => exact ⟨out, rfl, rfl⟩
  | cons j js ih =>
    obtain ⟨next, hnext, hsize, -⟩ := save_word_spec hu h ho j (s.get j)
    have hstep : (saveInPlace u .big (s.get j) (machineWordSpan j)).run out = .ok () next := by
      rw [run_saveInPlace hu.way_pos ho hg, span_machineWordSpan, hnext]
      rfl
    obtain ⟨after, hafter, hrun⟩ := ih (by rwa [Addressable, hsize]) (by rwa [hsize])
    refine ⟨after, ?_, ?_⟩
    · rw [List.foldlM_cons, hnext]
      exact hafter
    · rw [writeWordsInPlace, List.forM_cons, run_bind_of_ok hstep]
      exact hrun

end Write

/-- Without the check of the buffer, seven words would stand in one that has a byte too few. -/
example : (writeWordsInPlace scalarUnit (Vector.replicate 8 (1 : UInt32)) (List.finRange 8)).run
    (Array.replicate 31 0) = .error .outOfRange #[0, 0, 0, 1, 0, 0, 0, 1, 0, 0, 0, 1, 0, 0, 0, 1,
      0, 0, 0, 1, 0, 0, 0, 1, 0, 0, 0, 1, 0, 0, 0] := by
  cbv

section Atomic

variable {u} (hu : u.Lanewise) (hg : u.guarded = true ∨ u.way = 1) {out blocks : Bytes}
include hu hg

theorem run_hashInPlace_of_sufficient {count : Nat} (h : Sufficient u.way out blocks count) :
    ∃ after, hashChunks u out blocks count = .ok after ∧
      (hashInPlace u blocks count).run out = .ok () after := by
  obtain ⟨s, hs, -⟩ := processChunks_spec hu h.chunks h.blocks_addressable
  obtain ⟨after, hafter, hrun⟩ :=
    run_writeWordsInPlace hu hg h.out_addressable h.digests s (List.finRange 8)
  refine ⟨after, ?_, ?_⟩
  · rw [hashChunks_eq h, hs]
    change (writeDigests u s out).mapError EngineError.lanes = _
    rw [show writeDigests u s out = .ok after from hafter]
    rfl
  · have hcheck := (blockCheck_iff (u := u) h.blocks_addressable).mpr h.chunks
    rw [hashInPlace, if_pos hcheck, foldlM_chunksTaken h.chunks hu.way_pos, hs]
    change EStateM.run (if 32 * u.way ≤ out.size then _ else _) out = _
    rw [if_pos h.digests]
    exact run_adaptExcept _ (x := .ok ((), after)) hrun

/-- A run in place has the outcome of the engine, and one that fails has written nothing. -/
theorem run_hashInPlace (ho : Addressable out) (hb : Addressable blocks) (count : Nat) :
    (hashInPlace u blocks count).run out
      = allOrNothing out ((hashChunks u out blocks count).map fun after => ((), after)) := by
  by_cases hchunks : 64 * u.way * count ≤ blocks.size
  · by_cases hdigests : 32 * u.way ≤ out.size
    · obtain ⟨after, hafter, hrun⟩ :=
        run_hashInPlace_of_sufficient hu hg ⟨hchunks, hdigests, hb, ho⟩
      rw [hrun, hafter]
      rfl
    · have hshort := Nat.lt_of_not_le hdigests
      rw [run_hashInPlace_of_short_digests hb hchunks hshort,
        hashChunks_of_short_digests hb hchunks hshort]
      rfl
  · have hshort := Nat.lt_of_not_le hchunks
    rw [run_hashInPlace_of_short_blocks hb hshort, hashChunks_of_short_blocks hb hshort]
    rfl

end Atomic

/-! ### Kinds -/

section Kinds

variable {f : Features} {k : Kind} {out blocks : Bytes}

theorem hashChunksWith_of_supported (h : k.isSupported f) (count : Nat) :
    hashChunksWith f k out blocks count
      = (hashChunks k.unit out blocks count).mapError .engine := by
  rw [hashChunksWith, Kind.require_eq_ok h]
  rfl

/-- On a processor that does not support the kind, too, nothing is written. -/
theorem run_hashInPlaceWith (hb : Addressable blocks) (ho : Addressable out) (count : Nat) :
    (hashInPlaceWith f k blocks count).run out
      = allOrNothing out ((hashChunksWith f k out blocks count).map fun after => ((), after)) := by
  have hrun := run_hashInPlace k.backend.lanewise k.backend.guarded_or_one ho hb count
  unfold hashInPlaceWith hashChunksWith
  cases hrequire : k.require f with
  | error e => rfl
  | ok _ =>
    refine (run_adaptExcept BatchError.engine hrun).trans ?_
    change _ = allOrNothing out (((hashChunks k.backend.unit out blocks count).mapError _).map _)
    cases hashChunks k.backend.unit out blocks count <;> rfl

end Kinds

/-! ### Exactly -/

/-- What the engine leaves in the buffer: the digests of the lanes in front, and the rest as before. -/
structure Hashed (way : Nat) (out blocks : Bytes) (count : Nat) (after : Bytes) : Prop where
  size : after.size = out.size
  digest : ∀ i < way, after.extract (32 * i) (32 * i + 32) = (Standard.serialize
    (Standard.hashValue ((laneStream way blocks count i).blocks 64))).toArray
  behind : ∀ p, 32 * way ≤ p → after[p]? = out[p]?

/-- Without chunks the digests are the initial value. -/
theorem Hashed.initial {way : Nat} {out blocks after : Bytes} (h : Hashed way out blocks 0 after)
    {i : Nat} (hi : i < way) :
    after.extract (32 * i) (32 * i + 32) = (Standard.serialize Standard.initialValue).toArray := by
  have hnil : (laneStream way blocks 0 i).blocks 64 = [] := Bytes.blocks_empty 64
  rw [h.digest i hi, hnil]
  rfl

/-- The blocks behind the last chunk play no part. -/
theorem chunkAt_of_extract {u : LaneUnit} {blocks blocks' : Bytes} {count i : Nat} (hi : i < count)
    (h : blocks'.extract 0 (64 * u.way * count) = blocks.extract 0 (64 * u.way * count)) :
    chunkAt u blocks' i = chunkAt u blocks i := by
  have hin : i * (64 * u.way) + 64 * u.way ≤ 64 * u.way * count := by
    have := Nat.mul_le_mul_left (64 * u.way) hi
    rw [Nat.mul_succ, Nat.mul_comm] at this
    exact this
  have hcut (b : Bytes) : (b.extract 0 (64 * u.way * count)).extract (i * (64 * u.way))
      (i * (64 * u.way) + 64 * u.way) = chunkAt u b i := by
    rw [chunkAt, Array.extract_extract, Nat.zero_add, Nat.zero_add, Nat.min_eq_left hin]
  rw [← hcut blocks', h, hcut]

theorem processChunks_of_extract {u : LaneUnit} {blocks blocks' : Bytes} {count : Nat}
    (h : blocks'.extract 0 (64 * u.way * count) = blocks.extract 0 (64 * u.way * count)) :
    processChunks u blocks' count = processChunks u blocks count := by
  have hchunks : (List.range count).map (chunkAt u blocks')
      = (List.range count).map (chunkAt u blocks) :=
    List.map_congr_left fun i hi => chunkAt_of_extract (List.mem_range.mp hi) h
  rw [processChunks_eq_foldlM, processChunks_eq_foldlM, hchunks]

section Exact

variable {u : LaneUnit} (hu : u.Lanewise) {out blocks : Bytes} (ho : Addressable out)
  (hb : Addressable blocks) {count : Nat}
include hu ho hb

theorem hashChunks_eq_error_iff : (∃ e, hashChunks u out blocks count = .error e) ↔
    blocks.size < 64 * u.way * count ∨ out.size < 32 * u.way := by
  constructor
  · rintro ⟨e, he⟩
    by_contra hno
    obtain ⟨hchunks, hdigests⟩ := not_or.mp hno
    obtain ⟨after, hafter, -⟩ :=
      hashChunks_spec hu ⟨Nat.le_of_not_lt hchunks, Nat.le_of_not_lt hdigests, hb, ho⟩
    rw [hafter] at he
    cases he
  · intro hshort
    by_cases hchunks : blocks.size < 64 * u.way * count
    · exact ⟨_, hashChunks_of_short_blocks hb hchunks⟩
    · exact ⟨_, hashChunks_of_short_digests hb (Nat.le_of_not_lt hchunks)
        (hshort.resolve_left hchunks)⟩

theorem hashChunks_of_sufficient (hchunks : 64 * u.way * count ≤ blocks.size)
    (hdigests : 32 * u.way ≤ out.size) :
    ∃ after, hashChunks u out blocks count = .ok after ∧ Hashed u.way out blocks count after ∧
      ∀ blocks', Addressable blocks' →
        blocks'.extract 0 (64 * u.way * count) = blocks.extract 0 (64 * u.way * count) →
        hashChunks u out blocks' count = .ok after := by
  obtain ⟨after, hafter, hsize, hdigest, hbehind⟩ :=
    hashChunks_spec hu ⟨hchunks, hdigests, hb, ho⟩
  refine ⟨after, hafter, ⟨hsize, fun i hi => hdigest ⟨i, hi⟩, hbehind⟩, fun blocks' hb' h => ?_⟩
  have hchunks' : 64 * u.way * count ≤ blocks'.size := by
    have hlen := congrArg Array.size h
    rw [Array.size_extract, Array.size_extract] at hlen
    omega
  rw [hashChunks_eq ⟨hchunks', hdigests, hb', ho⟩, processChunks_of_extract h,
    ← hashChunks_eq ⟨hchunks, hdigests, hb, ho⟩, hafter]

end Exact

/-- A call of the engine fails exactly where a buffer is too short, the product taken without a bound,
and the blocks decide if both are.  Done in place it has the same outcome, and one that fails has
left the buffer as it was.  Else it goes through exactly `count` chunks, no other check stops it, the
digests are written and nothing else, and blocks behind the last chunk play no part.  So it is, too,
for every kind the processor supports. -/
theorem buffer_checks_exact (b : Backend) {out blocks : Bytes} (ho : Addressable out)
    (hb : Addressable blocks) (count : Nat) :
    ((∃ e, hashChunks b.unit out blocks count = .error e) ↔
      blocks.size < 64 * b.unit.way * count ∨ out.size < 32 * b.unit.way) ∧
    (blocks.size < 64 * b.unit.way * count → hashChunks b.unit out blocks count
      = .error (.shortBlocks blocks.size count (64 * b.unit.way))) ∧
    (64 * b.unit.way * count ≤ blocks.size → out.size < 32 * b.unit.way →
      hashChunks b.unit out blocks count = .error (.shortDigests out.size (32 * b.unit.way))) ∧
    (hashInPlace b.unit blocks count).run out
      = allOrNothing out ((hashChunks b.unit out blocks count).map fun after => ((), after)) ∧
    (64 * b.unit.way * count ≤ blocks.size → 32 * b.unit.way ≤ out.size →
      InnerChecks b.unit out blocks count ∧
      ∃ after, hashChunks b.unit out blocks count = .ok after ∧
        Hashed b.unit.way out blocks count after ∧
        (count = 0 → ∀ i < b.unit.way, after.extract (32 * i) (32 * i + 32)
          = (Standard.serialize Standard.initialValue).toArray) ∧
        ∀ blocks', Addressable blocks' → blocks'.extract 0 (64 * b.unit.way * count)
            = blocks.extract 0 (64 * b.unit.way * count) →
          hashChunks b.unit out blocks' count = .ok after) ∧
    ∀ (f : Features) (k : Kind), k.isSupported f →
      ((∃ e, hashChunksWith f k out blocks count = .error e) ↔
        blocks.size < k.bufferSizes.1 * count ∨ out.size < k.bufferSizes.2) ∧
      hashChunksWith f k out blocks count
        = (hashChunks k.backend.unit out blocks count).mapError .engine ∧
      (hashInPlaceWith f k blocks count).run out = allOrNothing out
        ((hashChunksWith f k out blocks count).map fun after => ((), after)) := by
  refine ⟨hashChunks_eq_error_iff b.lanewise ho hb, hashChunks_of_short_blocks hb,
    hashChunks_of_short_digests hb, run_hashInPlace b.lanewise b.guarded_or_one ho hb count,
    fun hchunks hdigests => ⟨innerChecks_of_sufficient b.lanewise ⟨hchunks, hdigests, hb, ho⟩, ?_⟩,
    fun f k hk => ⟨?_, hashChunksWith_of_supported hk count, run_hashInPlaceWith hb ho count⟩⟩
  · obtain ⟨after, hafter, hhashed, htail⟩ :=
      hashChunks_of_sufficient b.lanewise ho hb hchunks hdigests
    refine ⟨after, hafter, hhashed, fun hzero i hi => ?_, htail⟩
    subst hzero
    exact hhashed.initial hi
  · rw [hashChunksWith_of_supported hk]
    refine Iff.trans ?_ (hashChunks_eq_error_iff k.backend.lanewise ho hb)
    change (∃ e, (hashChunks k.backend.unit out blocks count).mapError _ = _) ↔ _
    cases hashChunks k.backend.unit out blocks count with
    | error e => exact ⟨fun _ => ⟨e, rfl⟩, fun _ => ⟨_, rfl⟩⟩
    | ok after => exact ⟨nofun, nofun⟩

/-- Two packed words: two chunks with five bytes behind them, none, and so many that their bytes are
no machine size; a buffer a byte too short; and a processor with wide registers, for which the blocks
do not last. -/
theorem buffer_checks_exact_packed :
    let out : Bytes := Array.replicate 70 0xaa
    let short : Bytes := Array.replicate 63 0xaa
    let blocks := Array.ofFn fun j : Fin 261 => j.val.toUInt8
    let f : Features := .ofList [.avx2]
    Addressable out ∧ Addressable short ∧ Addressable blocks ∧ 64 * 2 * 2 ≤ blocks.size ∧
      32 * 2 ≤ out.size ∧ Kind.avx2.isSupported f ∧
      (∃ after, (hashInPlace packedUnit blocks 2).run out = .ok () after ∧
        Hashed 2 out blocks 2 after ∧
        hashChunks packedUnit out (blocks.extract 0 256) 2 = .ok after) ∧
      (∃ after, hashChunks packedUnit out blocks 0 = .ok after ∧
        after.extract 32 64 = (Standard.serialize Standard.initialValue).toArray) ∧
      (hashInPlace packedUnit blocks 0x200000000000000).run out
        = .error (.shortBlocks 261 0x200000000000000 128) out ∧
      (hashInPlace packedUnit blocks 2).run short = .error (.shortDigests 63 64) short ∧
      ∃ e, (hashInPlaceWith f .avx2 blocks 2).run out = .error e out := by
  intro out short blocks f
  have hout : out.size = 70 := Array.size_replicate
  have hshort : short.size = 63 := Array.size_replicate
  have hblocks : blocks.size = 261 := Array.size_ofFn
  have ho : Addressable out := by simp [Addressable, hout, UInt64.size]
  have hs : Addressable short := by simp [Addressable, hshort, UInt64.size]
  have hb : Addressable blocks := by simp [Addressable, hblocks, UInt64.size]
  have hb' : Addressable (blocks.extract 0 256) := by simp [Addressable, hblocks, UInt64.size]
  have hchunks : 64 * 2 * 2 ≤ blocks.size := by simp [hblocks]
  have hdigests : 32 * 2 ≤ out.size := by simp [hout]
  have havx2 : Kind.avx2.isSupported f := rfl
  obtain ⟨-, -, -, hrun, henough, hkinds⟩ := buffer_checks_exact .swar2 ho hb 2
  obtain ⟨-, -, -, -, hnone, -⟩ := buffer_checks_exact .swar2 ho hb 0
  obtain ⟨-, hfew, -, hrunFew, -⟩ := buffer_checks_exact .swar2 ho hb 0x200000000000000
  obtain ⟨-, -, hroom, hrunRoom, -⟩ := buffer_checks_exact .swar2 hs hb 2
  obtain ⟨-, after, hafter, hhashed, -, htail⟩ := henough hchunks hdigests
  obtain ⟨-, initial, hinitial, -, hvalue, -⟩ := hnone (Nat.zero_le _) hdigests
  obtain ⟨hfails, -, hrunWide⟩ := hkinds f .avx2 havx2
  obtain ⟨e, he⟩ := hfails.mpr (.inl (by rw [hblocks]; decide))
  refine ⟨ho, hs, hb, hchunks, hdigests, havx2, ⟨after, ?_, hhashed, ?_⟩,
    ⟨initial, hinitial, hvalue rfl 1 (by decide)⟩, ?_, ?_, e, ?_⟩
  · rw [hafter] at hrun
    exact hrun
  · exact htail _ hb' (by rw [Array.extract_extract]; rfl)
  · rw [hfew (by rw [hblocks]; decide), hblocks] at hrunFew
    exact hrunFew
  · rw [hroom hchunks (by rw [hshort]; decide), hshort] at hrunRoom
    exact hrunRoom
  · rw [hrunWide, he]
    rfl

end ProofOfWork.Sha256

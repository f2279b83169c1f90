import ProofOfWork.Proofs.Sha256.Chunks

/-!
# ProofOfWork.Proofs.Sha256.Digests — the engine is SHA-256 in every lane

The words of a lane's state are written four bytes apart, so that the digest of lane `i` is the 32
bytes at `32 * i` (`writeDigests_spec`); what lies behind the last lane's digest stays.  With the
chunks this gives what one call of the engine does on a lanewise unit (`hashChunks_spec`).  It
speaks of nothing but the lane's own message: hence lanes and backends agree
(`lane_digest_of_stream`), and one lane is the standard (`hashChunks_scalar`).
-/

namespace ProofOfWork.Sha256

open Lanes

/-! ### Writing -/

/-- Where the words `j` of all lanes are written. -/
def wordSpan (j : Fin 8) : Span := ⟨32, 4 * j.val⟩

theorem address_wordSpan (j : Fin 8) (m : Nat) : (wordSpan j).address m = 4 * j.val + m * 32 := rfl

/-- The words `j` cover, of lane `i`'s 32 bytes, the four of that word. -/
theorem covers_wordSpan (j l : Fin 8) {m i k : Nat} (hk : k < 4) :
    (wordSpan j).Covers m (32 * i + (4 * l.val + k)) ↔ m = i ∧ l = j := by
  have hl := l.isLt
  have hj := j.isLt
  rw [Span.Covers, address_wordSpan, Fin.ext_iff]
  omega

section Scatter

variable {way : Nat} {out : Bytes}

/-- Nothing behind the last digest is touched. -/
theorem getElem?_scatter_wordSpan_of_le (j : Fin 8) (x : Vector UInt32 way) {p : Nat}
    (hp : 32 * way ≤ p) : (scatter .big (wordSpan j) x out)[p]? = out[p]? := by
  by_cases hsize : p < out.size
  · apply getElem?_scatter_of_uncovered .big _ _ _ hsize
    intro m hm hcover
    rw [Span.Covers, address_wordSpan] at hcover
    omega
  · rw [Array.getElem?_eq_none (by rw [size_scatter]; omega), Array.getElem?_eq_none (by omega)]

variable (h : 32 * way ≤ out.size)
include h

theorem inside_wordSpan (j : Fin 8) : (wordSpan j).Inside way out.size := by
  intro i hi
  rw [address_wordSpan]
  omega

/-- The words `j` go into all digests, and the other words of these are not touched. -/
theorem getElem?_scatter_wordSpan (j l : Fin 8) (x : Vector UInt32 way) {i k : Nat} (hi : i < way)
    (hk : k < 4) : (scatter .big (wordSpan j) x out)[32 * i + (4 * l.val + k)]?
      = if l = j then some (beBytes32 x[i])[k] else out[32 * i + (4 * l.val + k)]? := by
  split
  next hlj =>
    subst hlj
    have hplace : 32 * i + (4 * l.val + k) = (wordSpan l).address i + k := by
      rw [address_wordSpan]
      omega
    have hlast (m : Nat) (hm : i < m) : ¬ (wordSpan l).Covers m ((wordSpan l).address i + k) := by
      rw [← hplace]
      exact fun hcover => Nat.ne_of_gt hm ((covers_wordSpan l l hk).mp hcover).1
    rw [hplace]
    exact getElem?_scatter_of_last .big _ x out hi hk (by rw [← hplace]; omega)
      fun m hm _ => hlast m hm
  next hlj =>
    apply getElem?_scatter_of_uncovered .big _ _ _ (by omega)
    exact fun m _ hcover => hlj ((covers_wordSpan j l hk).mp hcover).2

end Scatter

section Write

variable {u : LaneUnit} (hu : u.Lanewise) {out : Bytes} (h : 32 * u.way ≤ out.size)
include hu h

/-- Saving the words `j` writes them into all digests and nothing else. -/
theorem save_word_spec (ho : Addressable out) (j : Fin 8) (x : u.Group) :
    ∃ d, u.save .big x (wordSpan j) out = .ok d ∧ d.size = out.size ∧
      (∀ (i : Fin u.way) (l : Fin 8) (k : Nat) (hk : k < 4), d[32 * i.val + (4 * l.val + k)]?
        = if l = j then some (beBytes32 (u.lane i x))[k] else out[32 * i.val + (4 * l.val + k)]?) ∧
      ∀ p, 32 * u.way ≤ p → d[p]? = out[p]? := by
  refine ⟨_, LaneUnit.save_of_inside hu.way_pos .big x (inside_wordSpan h j) ho, size_scatter ..,
    fun i l k hk => ?_, fun p hp => ?_⟩
  · exact getElem?_scatter_wordSpan h j l (u.toLanes x) i.isLt hk
  · exact getElem?_scatter_wordSpan_of_le j (u.toLanes x) hp

/-- After any of the words have been saved, in any order, those are written and the others are as
before. -/
theorem save_words_spec (ho : Addressable out) (s : State u) (js : List (Fin 8)) :
    ∃ d, js.foldlM (fun out j => u.save .big (s.get j) (wordSpan j) out) out = .ok d ∧
      d.size = out.size ∧
      (∀ (i : Fin u.way) (l : Fin 8) (k : Nat) (hk : k < 4),
        (l ∈ js → d[32 * i.val + (4 * l.val + k)]? = some (beBytes32 (u.lane i (s.get l)))[k]) ∧
        (l ∉ js → d[32 * i.val + (4 * l.val + k)]? = out[32 * i.val + (4 * l.val + k)]?)) ∧
      ∀ p, 32 * u.way ≤ p → d[p]? = out[p]? := by
  induction js generalizing out with
  | nil => exact ⟨out, rfl, rfl, fun _ _ _ _ => ⟨nofun, fun _ => rfl⟩, fun _ _ => rfl⟩
  | cons j js ih =>
    obtain ⟨d, hd, hsize, hword, hrest⟩ := save_word_spec hu h ho j (s.get j)
    have hod : Addressable d := by rwa [Addressable, hsize]
    obtain ⟨r, hr, hsizer, hwordr, hrestr⟩ := ih (by rwa [hsize]) hod
    refine ⟨r, ?_, hsizer.trans hsize, ?_, fun p hp => (hrestr p hp).trans (hrest p hp)⟩
    · rw [List.foldlM_cons, hd]
      exact hr
    · intro i l k hk
      obtain ⟨hin, hout⟩ := hwordr i l k hk
      have hsaved := hword i l k hk
      refine ⟨fun hl => ?_, fun hl => ?_⟩
      · by_cases hjs : l ∈ js
        · exact hin hjs
        · obtain rfl : l = j := (List.mem_cons.mp hl).resolve_right hjs
          rw [hout hjs, hsaved, if_pos rfl]
      · obtain ⟨hlj, hjs⟩ := List.ne_and_not_mem_of_not_mem_cons hl
        rw [hout hjs, hsaved, if_neg hlj]

/-- The bytes of lane `i` are its state as the standard writes it, and nothing behind the last
lane's changes. -/
theorem writeDigests_spec (ho : Addressable out) (s : State u) :
    ∃ d, writeDigests u s out = .ok d ∧ d.size = out.size ∧
      (∀ i : Fin u.way, d.extract (32 * i) (32 * i + 32)
        = (Standard.serialize (s.map (u.lane i))).toArray) ∧
      ∀ p, 32 * u.way ≤ p → d[p]? = out[p]? := by
  obtain ⟨d, hd, hsize, hword, hrest⟩ := save_words_spec hu h ho s (List.finRange 8)
  refine ⟨d, hd, hsize, fun i => ?_, hrest⟩
  have hi := i.isLt
  apply Array.ext_getElem?
  intro p
  by_cases hp : p < 32
  · have hbyte := (hword i ⟨p / 4, by omega⟩ (p % 4) (by omega)).1 (List.mem_finRange _)
    simp only [Nat.div_add_mod] at hbyte
    rw [Array.getElem?_extract_of_lt (by omega), ← Array.getElem?_eq_getElem, hbyte,
      getElem_beBytes32, Array.getElem?_eq_getElem (by rwa [Vector.size_toArray]),
      Vector.getElem_toArray, Standard.serialize, Vector.getElem_ofFn, Vector.getElem_map]
    rfl
  · rw [Array.getElem?_eq_none (by rw [Array.size_extract]; omega),
      Array.getElem?_eq_none (by rw [Vector.size_toArray]; omega)]

end Write

/-! ### The engine -/

/-- Buffers with `count` chunks and with room for the digests of `way` lanes. -/
structure Sufficient (way : Nat) (out blocks : Bytes) (count : Nat) : Prop where
  chunks : 64 * way * count ≤ blocks.size
  digests : 32 * way ≤ out.size
  blocks_addressable : Addressable blocks
  out_addressable : Addressable out

theorem blockCheck_iff {u : LaneUnit} {blocks : Bytes} {count : Nat} (hb : Addressable blocks) :
    (checkedMul count (64 * u.way)).any (· ≤ blocks.size) = true ↔
      64 * u.way * count ≤ blocks.size := by
  rw [checkedMul_any_le hb, Nat.mul_comm]

/-- What is left of the engine when its checks have passed. -/
theorem hashChunks_eq {u : LaneUnit} {out blocks : Bytes} {count : Nat}
    (h : Sufficient u.way out blocks count) : hashChunks u out blocks count
      = processChunks u blocks count >>= fun s => (writeDigests u s out).mapError .lanes := by
  rw [hashChunks, if_pos ((blockCheck_iff h.blocks_addressable).mpr h.chunks), if_pos h.digests]

theorem hashChunks_spec {u : LaneUnit} (hu : u.Lanewise) {out blocks : Bytes} {count : Nat}
    (h : Sufficient u.way out blocks count) :
    ∃ d, hashChunks u out blocks count = .ok d ∧ d.size = out.size ∧
      (∀ i : Fin u.way, d.extract (32 * i) (32 * i + 32) = (Standard.serialize
        (Standard.hashValue ((laneStream u.way blocks count i).blocks 64))).toArray) ∧
      ∀ p, 32 * u.way ≤ p → d[p]? = out[p]? := by
  obtain ⟨s, hs, hlane⟩ := processChunks_spec hu h.chunks h.blocks_addressable
  obtain ⟨d, hd, hsize, hbytes, hrest⟩ := writeDigests_spec hu h.digests h.out_addressable s
  refine ⟨d, ?_, hsize, fun i => ?_, hrest⟩
  · rw [hashChunks_eq h, hs]
    change (writeDigests u s out).mapError EngineError.lanes = _
    rw [hd]
    rfl
  · rw [hbytes i, hlane i]

/-! ### Lanes and backends -/

/-- The message of a lane hashed by itself, on one lane, is the same message. -/
theorem laneStream_laneStream {way count : Nat} {blocks : Bytes} {i : Nat} (hi : i < way)
    (h : 64 * way * count ≤ blocks.size) :
    laneStream 1 (laneStream way blocks count i) count 0 = laneStream way blocks count i := by
  have hsize := size_laneStream hi h
  rw [laneStream_one (Nat.le_of_eq hsize.symm), ← hsize, Array.extract_size]

/-- What a lane writes is what the plain unit writes for the lane's message alone, so that it does
not depend on the other lanes, on how many there are, or on the backend. -/
theorem lane_digest_of_stream (b : Backend) {out blocks : Bytes} {count : Nat}
    (h : Sufficient b.unit.way out blocks count) (i : Fin b.unit.way) :
    ∃ d, hashChunks b.unit out blocks count = .ok d ∧
      (∀ out₁ : Bytes, 32 ≤ out₁.size → Addressable out₁ → ∃ e,
        hashChunks scalarUnit out₁ (laneStream b.unit.way blocks count i) count = .ok e ∧
          d.extract (32 * i) (32 * i + 32) = e.extract 0 32) ∧
      ∀ (b₁ : Backend) (out₁ blocks₁ : Bytes) (count₁ : Nat),
        Sufficient b₁.unit.way out₁ blocks₁ count₁ → ∀ j : Fin b₁.unit.way,
        laneStream b₁.unit.way blocks₁ count₁ j = laneStream b.unit.way blocks count i →
        ∃ e, hashChunks b₁.unit out₁ blocks₁ count₁ = .ok e ∧
          d.extract (32 * i) (32 * i + 32) = e.extract (32 * j) (32 * j + 32) := by
  obtain ⟨d, hd, -, hdigest, -⟩ := hashChunks_spec b.lanewise h
  have hsize := size_laneStream i.isLt h.chunks
  refine ⟨d, hd, fun out₁ hdigests ho => ?_, fun b₁ out₁ blocks₁ count₁ h₁ j hj => ?_⟩
  · have h₁ : Sufficient scalarUnit.way out₁ (laneStream b.unit.way blocks count i) count := by
      refine ⟨Nat.le_of_eq hsize.symm, hdigests, ?_, ho⟩
      have := h.blocks_addressable
      have := Nat.mul_le_mul_right count (Nat.mul_le_mul_left 64 b.lanewise.way_pos)
      have := h.chunks
      rw [Addressable] at *
      omega
    obtain ⟨e, he, -, hdigest₁, -⟩ := hashChunks_spec scalarUnit_lanewise h₁
    refine ⟨e, he, ?_⟩
    have hfirst := hdigest₁ (0 : Fin 1)
    change e.extract 0 32 = (Standard.serialize (Standard.hashValue
      ((laneStream 1 (laneStream b.unit.way blocks count i) count 0).blocks 64))).toArray at hfirst
    rw [hdigest i, hfirst, laneStream_laneStream i.isLt h.chunks]
  · obtain ⟨e, he, -, hdigest₁, -⟩ := hashChunks_spec b₁.lanewise h₁
    exact ⟨e, he, by rw [hdigest i, hdigest₁ j, hj]⟩

/-- The upper of two packed words, over two chunks. -/
theorem lane_digest_of_stream_packed :
    let blocks := Array.ofFn fun j : Fin 256 => j.val.toUInt8
    let message := laneStream 2 blocks 2 1
    Sufficient 2 (Array.replicate 64 0) blocks 2 ∧
      32 ≤ (Array.replicate 40 (0 : UInt8)).size ∧ Addressable (Array.replicate 40 0) ∧
      ∃ d, hashChunks packedUnit (Array.replicate 64 0) blocks 2 = .ok d ∧
        ∃ e, hashChunks scalarUnit (Array.replicate 40 0) message 2 = .ok e ∧
          d.extract 32 64 = e.extract 0 32 := by
  intro blocks message
  have hroom : Sufficient 2 (Array.replicate 64 0) blocks 2 :=
    ⟨by simp [blocks], by simp, by simp [blocks, Addressable, UInt64.size],
      by simp [Addressable, UInt64.size]⟩
  have hout : Addressable (Array.replicate 40 0) := by simp [Addressable, UInt64.size]
  obtain ⟨d, hd, halone, -⟩ := lane_digest_of_stream .swar2 hroom (1 : Fin 2)
  obtain ⟨e, he, heq⟩ := halone (Array.replicate 40 0) (by simp) hout
  exact ⟨hroom, by simp, hout, d, hd, e, he, heq⟩

/-! ### One lane is the standard -/

/-- The plain unit puts the hash value in front of what was in the buffer. -/
theorem hashChunks_scalar {out blocks : Bytes} {count : Nat} (h : Sufficient 1 out blocks count) :
    hashChunks scalarUnit out blocks count = .ok ((Standard.serialize (Standard.hashValue
      (Bytes.blocks (blocks.extract 0 (64 * count)) 64))).toArray ++ out.extract 32 out.size) := by
  have hchunks : 64 * count ≤ blocks.size := h.chunks
  have hdigests : 32 ≤ out.size := h.digests
  obtain ⟨d, hd, hsize, hdigest, hrest⟩ := hashChunks_spec scalarUnit_lanewise h
  have hfirst := hdigest (0 : Fin 1)
  change d.extract 0 32 = (Standard.serialize (Standard.hashValue
    ((laneStream 1 blocks count 0).blocks 64))).toArray at hfirst
  rw [laneStream_one hchunks] at hfirst
  have hlast : d.extract 32 d.size = out.extract 32 out.size := by
    apply Array.ext_getElem?
    intro p
    have := hrest (32 + p) (Nat.le_add_right 32 p)
    simp only [Array.getElem?_extract, hsize, this]
  have hsplit : d = d.extract 0 32 ++ d.extract 32 d.size := by
    rw [Array.extract_append_extract, Nat.min_eq_left (by omega), Nat.max_eq_right (by omega),
      Array.extract_size]
  rw [hd, ← hfirst, ← hlast, ← hsplit]

/-- Blocks one after the other. -/
def joined (bs : List Block) : Bytes := bs.toArray.flatMap Vector.toArray

theorem toList_joined (bs : List Block) : (joined bs).toList = bs.flatMap Vector.toList := by
  rw [joined, Array.toList_flatMap]
  rfl

theorem size_joined (bs : List Block) : (joined bs).size = 64 * bs.length := by
  rw [← Array.length_toList, toList_joined, length_flatMap_toList]

/-- Joined blocks are cut where they were joined, whatever follows them. -/
theorem blocks_extract_joined (bs : List Block) (tail : Bytes) :
    Bytes.blocks ((joined bs ++ tail).extract 0 (64 * bs.length)) 64 = bs := by
  have hextract : (joined bs ++ tail).extract 0 (64 * bs.length) = joined bs := by
    rw [← size_joined bs]
    simp
  rw [hextract]
  exact Bytes.blocks_eq (by decide) (toList_joined bs)

/-- The engine on one lane is SHA-256: of blocks it writes the standard's hash value, and of a
padded message the digest. -/
theorem scalar_is_sha256 {out : Bytes} (h32 : 32 ≤ out.size) (ho : Addressable out) :
    (∀ (bs : List Block) (tail : Bytes), Addressable (joined bs ++ tail) →
      hashChunks scalarUnit out (joined bs ++ tail) bs.length
        = .ok ((Standard.serialize (Standard.hashValue bs)).toArray ++ out.extract 32 out.size)) ∧
    ∀ message : Bytes, message.size < 2 ^ 61 →
      hashChunks scalarUnit out (Standard.pad message) ((Standard.pad message).size / 64)
        = .ok ((Standard.digest message).toArray ++ out.extract 32 out.size) := by
  refine ⟨fun bs tail hb => ?_, fun message hm => ?_⟩
  · have hle : 64 * bs.length ≤ (joined bs ++ tail).size := by
      rw [Array.size_append, size_joined]
      omega
    rw [hashChunks_scalar ⟨hle, h32, hb, ho⟩, blocks_extract_joined]
  · have hsize := Standard.size_pad message
    have hfull : 64 * ((Standard.pad message).size / 64) = (Standard.pad message).size := by
      have := Standard.size_pad_mod message
      omega
    have hb : Addressable (Standard.pad message) := by
      rw [Addressable, hsize, Standard.paddingZeros, UInt64.size]
      omega
    rw [hashChunks_scalar ⟨Nat.le_of_eq hfull, h32, hb, ho⟩, hfull, Array.extract_size]
    rfl

/-- Two blocks with a byte behind them, and the message `abc`; the last byte of the buffer stays. -/
theorem scalar_is_sha256_abc :
    let out := Array.replicate 33 (7 : UInt8)
    let bs : List Block := [Vector.replicate 64 1, Vector.replicate 64 2]
    let message : Bytes := #[0x61, 0x62, 0x63]
    32 ≤ out.size ∧ Addressable out ∧ Addressable (joined bs ++ #[3]) ∧ message.size < 2 ^ 61 ∧
      hashChunks scalarUnit out (joined bs ++ #[3]) 2
        = .ok ((Standard.serialize (Standard.hashValue bs)).toArray ++ #[7]) ∧
      hashChunks scalarUnit out (Standard.pad message) 1
        = .ok ((Standard.digest message).toArray ++ #[7]) := by
  intro out bs message
  have ho : Addressable out := by simp [out, Addressable, UInt64.size]
  have hb : Addressable (joined bs ++ #[3]) := by
    simp [bs, Addressable, size_joined, UInt64.size]
  have hrest : out.extract 32 out.size = #[7] := by decide
  have hcount : (Standard.pad message).size / 64 = 1 := by
    rw [Standard.size_pad]
    decide
  obtain ⟨hblocks, hmessages⟩ := scalar_is_sha256 (by decide) ho
  have hjoined := hblocks bs #[3] hb
  have hpadded := hmessages message (by decide)
  rw [hrest] at hjoined hpadded
  rw [hcount] at hpadded
  exact ⟨by decide, ho, hb, by decide, hjoined, hpadded⟩

end ProofOfWork.Sha256

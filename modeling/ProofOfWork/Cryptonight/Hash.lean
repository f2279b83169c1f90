import ProofOfWork.Cryptonight.Accelerated
import ProofOfWork.Cryptonight.HeaderBlob
import ProofOfWork.Finisher

/-!
# ProofOfWork.Cryptonight.Hash — the hash of a header blob

The blob is absorbed, the state fills a pad, the pad is mixed and folded back, and the permuted
state is finished.  The standard path takes the variant from the blob; the fast path knows variant 1
alone and has the same digests.
-/

namespace ProofOfWork.Cryptonight

/-! ### Phases -/

/-- Passes in one hash. -/
abbrev passCount : Nat := 524288

def freshPad : Pad := Vector.replicate lineCount Line.zero

def startA (s : Keccak.State) : Line := s.line 0 ^^^ s.line 2

def startB (s : Keccak.State) : Line := s.line 1 ^^^ s.line 3

def startB1 (s : Keccak.State) : Line := s.line 4 ^^^ s.line 5

/-- The tweak of variant 1, from the last lane of the state and the nonce bytes of the blob. -/
def tweakOf (s : Keccak.State) (blob : Bytes) (h : variant1Min ≤ blob.size) : UInt64 :=
  s[24] ^^^ leWord64 (slice blob.toVector tweakOffset 8 h)

/-- The digest of a state into which a mixed pad is folded. -/
def conclude (s : Keccak.State) (pad : Pad) : Digest :=
  finish (Keccak.permute (Scratchpad.implode s pad))

/-! ### Variants -/

def hashV0 (blob : Bytes) : Digest :=
  let s := Keccak.hash blob
  let m : Mixer := ⟨Scratchpad.explode s freshPad, startA s, startB s⟩
  conclude s (Nat.repeat Mixer.passV0 passCount m).pad

def hashV1 (blob : Bytes) (h : variant1Min ≤ blob.size) : Digest :=
  let s := Keccak.hash blob
  let m : Mixer := ⟨Scratchpad.explode s freshPad, startA s, startB s⟩
  conclude s (Nat.repeat (Mixer.passV1 (tweakOf s blob h)) passCount m).pad

def hashV2 (blob : Bytes) : Digest :=
  let s := Keccak.hash blob
  let m : ShufflingMixer :=
    ⟨Scratchpad.explode s freshPad, startA s, startB s, startB1 s, ⟨s[12], s[13]⟩⟩
  conclude s (Nat.repeat ShufflingMixer.pass passCount m).pad

/-- Variant 1 by the accelerated phases. -/
def hashAccelerated (blob : Bytes) (h : variant1Min ≤ blob.size) : Digest :=
  let s := Keccak.hash blob
  let a := startA s
  let r : Accelerated.Registers :=
    ⟨Accelerated.explode s freshPad, a.lo, a.hi, startB s, a.lo⟩
  let r := Nat.repeat (Accelerated.pass (tweakOf s blob h)) passCount r
  finish (Keccak.permute (Accelerated.implode s r.pad))

/-! ### Entry points -/

/-- Why a blob was not hashed. -/
inductive Refusal
  | standard (cause : BlobError)
  | fast (cause : BlobError)
  /-- Variant 1 was asked for, of a blob that has no room for the tweak. -/
  | untweakable (len : Nat)
deriving DecidableEq, Repr

def Refusal.message : Refusal → String
  | standard cause => "standard path contract violated: " ++ cause.message
  | fast cause => "fast path contract violated: " ++ cause.message
  | untweakable len => "variant 1 needs at least 43 bytes, got " ++ toString len

def hashVariant (v : Variant) (blob : Bytes) : Except Refusal Digest :=
  match v with
  | .v0 => .ok (hashV0 blob)
  | .v1 => if h : variant1Min ≤ blob.size then .ok (hashV1 blob h) else .error (.untweakable blob.size)
  | .v2 => .ok (hashV2 blob)

def hashStandard (blob : Bytes) : Except Refusal Digest :=
  match standardVariant blob with
  | .ok v => hashVariant v blob
  | .error e => .error (.standard e)

def hashFast (blob : Bytes) : Except Refusal Digest :=
  match h : checkFast blob with
  | .ok () => .ok (hashAccelerated blob (Nat.le_trans (by decide) (size_of_checkFast h).1))
  | .error e => .error (.fast e)

/-- The digests of many blobs in order; one refused blob refuses them all. -/
def hashMany (blobs : List Bytes) : Except Refusal (List Digest) := blobs.mapM hashStandard

def verify (blob : Bytes) (expected : Digest) : Except Refusal Bool :=
  (hashStandard blob).map fun d => d == expected

end ProofOfWork.Cryptonight

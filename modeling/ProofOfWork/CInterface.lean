import ProofOfWork.Cryptonight.Hash
import ProofOfWork.Sha256.Batch

/-!
# ProofOfWork.CInterface — the functions offered to C callers

A call takes buffers that may be absent, and answers with a status and the output buffer.  Every
check comes before the first write, so a call with another status than success leaves the buffer as
it was.
-/

namespace ProofOfWork.CInterface

open Processor

inductive Status
  | success
  /-- A buffer is missing. -/
  | absent
  /-- A feature is missing, or the work did not come to an end. -/
  | stopped
  | refused
deriving DecidableEq, Repr

def Status.code : Status → Int
  | success => 0
  | absent => -1
  | stopped => -2
  | refused => -3

/-- The digests over the front of a buffer; bytes past its end are dropped. -/
def store (digests : List Digest) (out : Bytes) : Bytes :=
  let d : Bytes := digests.toArray.flatMap Vector.toArray
  Array.ofFn fun i : Fin out.size => if h : i.val < d.size then d[i.val] else out[i]

/-- The hash of one blob into a buffer of 32 bytes, with the blob's check made first. -/
def hashInto (check : Bytes → Except Cryptonight.BlobError Unit) (hash : Bytes → Option Digest)
    (blob out : Option Bytes) : Status × Option Bytes :=
  match blob, out with
  | some blob, some out =>
    match check blob with
    | .error _ => (.refused, some out)
    | .ok () =>
      match hash blob with
      | none => (.stopped, some out)
      | some d => (.success, some (store [d] out))
  | _, out => (.absent, out)

def cryptonightStandard : Option Bytes → Option Bytes → Status × Option Bytes :=
  hashInto Cryptonight.checkStandard fun blob => (Cryptonight.hashStandard blob).toOption

/-- A blob is refused before the processor is asked whether it could hash it. -/
def cryptonightFast (f : Features) : Option Bytes → Option Bytes → Status × Option Bytes :=
  hashInto Cryptonight.checkFast fun blob =>
    match f.require acceleratedNeeds with
    | .ok () => (Cryptonight.hashFast blob).toOption
    | .error _ => none

/-- Digests of independent padded blocks, in order. -/
def sha256Blocks (f : Features) (blocks : Option (List Sha256.Block)) (out : Option Bytes) :
    Status × Option Bytes :=
  match blocks, out with
  | some blocks, some out =>
    match Sha256.tryDigests f blocks with
    | .ok ds => (.success, some (store ds out))
    | .error _ => (.stopped, some out)
  | _, out => (.absent, out)

/-- The bytes before the first zero. -/
def untilZero (name : Bytes) : Bytes := name.takeWhile (· != 0)

/-- Whether a feature is there, by its name. -/
def hasFeature (f : Features) (name : Option Bytes) : Except Status Bool :=
  match name with
  | none => .error .absent
  | some name =>
    match (String.fromUTF8? ⟨untilZero name⟩).bind Feature.ofName? with
    | none => .error .refused
    | some x => .ok (f.has x)

def activeBackend (f : Features) : String := (Kind.best f).name

end ProofOfWork.CInterface

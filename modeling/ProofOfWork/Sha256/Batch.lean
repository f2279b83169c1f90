import ProofOfWork.Dispatch
import ProofOfWork.Sha256.Engine

/-!
# ProofOfWork.Sha256.Batch — many messages of one block each

Blocks go through a unit as many at a time as it has lanes; the last few, too few for all lanes, are
hashed one by one.
-/

namespace ProofOfWork.Sha256

open Lanes Processor

/-- A message padded to one block. -/
abbrev Block := Vector UInt8 64

/-- The digest of one block, on one lane. -/
def blockDigest (b : Block) : Digest :=
  let s : Vector UInt32 8 :=
    compress scalarUnit (start scalarUnit) (words32 .big (n := 16) b)
  bytesOfWords32 .big s

/-- `n` items at a time; the last group may be shorter. -/
def groupsOf {α : Type} (n : Nat) (hn : 0 < n) (l : List α) : List (List α) :=
  if _ : l = [] then [] else l.take n :: groupsOf n hn (l.drop n)
termination_by l.length
decreasing_by
  have : 0 < l.length := List.length_pos_iff.mpr ‹_›
  simp only [List.length_drop]
  omega

/-- The digests of at most as many blocks as the kind has lanes. -/
def groupDigests (k : Kind) (group : List Block) : Except EngineError (List Digest) :=
  if group.length < k.way then .ok (group.map blockDigest)
  else do
    let input : Bytes := (group.toArray.flatMap Vector.toArray)
    let out ← hashChunks k.unit (Array.replicate (32 * k.way) 0) input 1
    return Bytes.blocks out 32

inductive BatchError
  | unavailable (cause : MissingFeature)
  | engine (cause : EngineError)
deriving DecidableEq, Repr

/-- Chunks on the unit of a kind, which the processor must support. -/
def hashChunksWith (f : Features) (k : Kind) (out blocks : Bytes) (count : Nat) :
    Except BatchError Bytes := do
  (k.require f).mapError .unavailable
  (hashChunks k.unit out blocks count).mapError .engine

def digestsWith (f : Features) (k : Kind) (blocks : List Block) : Except BatchError (List Digest) := do
  (k.require f).mapError .unavailable
  let groups ← ((groupsOf k.way k.way_pos blocks).mapM (groupDigests k)).mapError .engine
  return groups.flatten

/-- On the best kind the processor has; one by one should that one not be usable.  What stops the
engine stops the batch. -/
def tryDigests (f : Features) (blocks : List Block) : Except EngineError (List Digest) :=
  match digestsWith f (Kind.best f) blocks with
  | .ok ds => .ok ds
  | .error (.unavailable _) => .ok (blocks.map blockDigest)
  | .error (.engine cause) => .error cause

def digests (f : Features) (blocks : List Block) : List Digest :=
  (tryDigests f blocks).toOption.getD []

end ProofOfWork.Sha256

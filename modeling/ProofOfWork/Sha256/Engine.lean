import ProofOfWork.Lanes.Backend
import ProofOfWork.Sha256.Constants

/-!
# ProofOfWork.Sha256.Engine — SHA-256 on all lanes of a unit at once

Every lane hashes a message of its own, block by block.  A chunk holds one block a lane, lane `i`'s
at `64 * i`, and the next chunk goes on with the same messages; lane `i`'s digest is written at
`32 * i`.  Blocks are padded already.  The schedule is kept in a ring of sixteen words: word `t` is
made in the place of word `t - 16`.
-/

namespace ProofOfWork.Sha256

open Lanes

variable (u : LaneUnit)

/-! ### Functions of the rounds -/

def bigSigma0 (x : u.Group) : u.Group := u.xor (u.xor (u.rol 30 x) (u.rol 19 x)) (u.rol 10 x)

def bigSigma1 (x : u.Group) : u.Group := u.xor (u.xor (u.rol 26 x) (u.rol 21 x)) (u.rol 7 x)

def smallSigma0 (x : u.Group) : u.Group := u.xor (u.xor (u.rol 25 x) (u.rol 14 x)) (u.shr 3 x)

def smallSigma1 (x : u.Group) : u.Group := u.xor (u.xor (u.rol 15 x) (u.rol 13 x)) (u.shr 10 x)

/-- `y` where `x` is set, `z` where it is clear. -/
def choose (x y z : u.Group) : u.Group := u.xor z (u.and x (u.xor y z))

def majority (x y z : u.Group) : u.Group := u.or (u.and x y) (u.and z (u.or x y))

/-! ### Compression -/

abbrev State := Vector u.Group 8

abbrev Ring := Vector u.Group 16

def start : State u := initial.map u.broadcast

/-- Makes the word of round `t` in its place; the first sixteen are the block's. -/
def refresh (t : Nat) (w : Ring u) : Ring u :=
  if t < 16 then w
  else w.set (t % 16) (u.add4 (smallSigma1 u w[(t - 2) % 16]) w[(t - 7) % 16]
    (smallSigma0 u w[(t - 15) % 16]) w[t % 16])

/-- One round on the eight words, with constant `k` and schedule word `w`. -/
def round (s : State u) (k : UInt32) (w : u.Group) : State u :=
  let t1 := u.add4 (s.get 7) (bigSigma1 u (s.get 4)) (choose u (s.get 4) (s.get 5) (s.get 6))
    (u.add (u.broadcast k) w)
  let t2 := u.add (bigSigma0 u (s.get 0)) (majority u (s.get 0) (s.get 1) (s.get 2))
  #v[u.add t1 t2, s.get 0, s.get 1, s.get 2, u.add (s.get 3) t1, s.get 4, s.get 5, s.get 6]

def ringRound (t : Nat) (ht : t < 64) (p : State u × Ring u) : State u × Ring u :=
  let w := refresh u t p.2
  (round u p.1 roundConstants[t] w[t % 16], w)

def compress (s : State u) (w : Ring u) : State u :=
  Vector.zipWith u.add s (Nat.fold 64 (ringRound u) (s, w)).1

/-! ### Errors -/

inductive EngineError
  | shortChunk (len need way : Nat)
  | shortBlocks (len count chunk : Nat)
  | shortDigests (len need : Nat)
  | lanes (cause : LaneError)
deriving DecidableEq, Repr

def EngineError.message? : EngineError → Option String
  | shortChunk len need way =>
    some ("block chunk is " ++ toString len ++ " bytes, " ++ toString need ++ " needed for " ++
      toString way ++ " lanes")
  | shortBlocks len count chunk =>
    some (toString len ++ " block bytes supplied, " ++ toString count ++ " x " ++ toString chunk ++
      " needed")
  | shortDigests len need =>
    some ("digest buffer is " ++ toString len ++ " bytes, " ++ toString need ++ " needed")
  | lanes cause => cause.message?

/-! ### Buffers -/

/-- The words of a chunk's blocks. -/
def loadRing (chunk : Bytes) : Except LaneError (Ring u) :=
  (Vector.range 16).mapM fun i => u.load .big ⟨64, 4 * i⟩ chunk

/-- Takes one chunk in; bytes after the last lane's block play no part. -/
def processBlock (s : State u) (chunk : Bytes) : Except EngineError (State u) :=
  if chunk.size < 64 * u.way then .error (.shortChunk chunk.size (64 * u.way) u.way)
  else ((loadRing u chunk).mapError .lanes).map (compress u s)

/-- Writes the digests of all lanes, the first words of all of them before the second ones. -/
def writeDigests (s : State u) (out : Bytes) : Except LaneError Bytes :=
  (List.finRange 8).foldlM (fun out i => u.save .big (s.get i) ⟨32, 4 * i.val⟩ out) out

/-- Chunk `c` of the blocks. -/
def chunkAt (blocks : Bytes) (c : Nat) : Bytes :=
  blocks.extract (c * (64 * u.way)) (c * (64 * u.way) + 64 * u.way)

def processChunks (blocks : Bytes) (count : Nat) : Except EngineError (State u) :=
  (List.range count).foldlM (fun s c => processBlock u s (chunkAt u blocks c)) (start u)

/-- Hashes `count` chunks and writes the digests over the front of `out`.  Both buffers are checked
before anything is done, the blocks first. -/
def hashChunks (out blocks : Bytes) (count : Nat) : Except EngineError Bytes := do
  unless (checkedMul count (64 * u.way)).any (· ≤ blocks.size) do
    throw (.shortBlocks blocks.size count (64 * u.way))
  unless 32 * u.way ≤ out.size do
    throw (.shortDigests out.size (32 * u.way))
  let s ← processChunks u blocks count
  (writeDigests u s out).mapError .lanes

end ProofOfWork.Sha256

import ProofOfWork.Cryptonight.Hash
import ProofOfWork.Difficulty

/-!
# ProofOfWork.NonceSearch — the least nonce whose hash meets a difficulty

The nonces of a range are tried in rounds, those of one round side by side.  Within a round and from
round to round the lower nonce comes first, so the number of workers has no bearing on the answer.
-/

namespace ProofOfWork.NonceSearch

open Cryptonight

/-- Where a header carries its nonce, lowest byte first. -/
abbrev nonceOffset : Nat := 39

/-- The shortest blob that has all bytes of the nonce. -/
abbrev blobMin : Nat := 43

def withNonce (blob : Bytes) (nonce : UInt32) : Bytes :=
  blob.mapIdx fun i b =>
    if h : nonceOffset ≤ i ∧ i < nonceOffset + 4 then (leBytes32 nonce)[i - nonceOffset] else b

structure Hit where
  nonce : UInt32
  digest : Digest
deriving DecidableEq, Repr

def attempt (hash : Bytes → Except Refusal Digest) (blob : Bytes) (difficulty : UInt64)
    (nonce : UInt32) : Except Refusal (Option Hit) := do
  let d ← hash (withNonce blob nonce)
  return if meetsDifficulty d difficulty then some ⟨nonce, d⟩ else none

/-! ### Ranges -/

/-- The last of `count` nonces from `start` on; there is none above the greatest word. -/
def lastNonce (start count : UInt32) : Nat := min (start.toNat + count.toNat - 1) (UInt32.size - 1)

/-- The first hit among `remaining` nonces from `first` on. -/
def scan (attempt : UInt32 → Except Refusal (Option Hit)) (workers : Nat) (hw : 0 < workers)
    (first remaining : Nat) : Except Refusal (Option Hit) :=
  if _ : remaining = 0 then .ok none
  else do
    let n := min workers remaining
    let round := (List.range' first n).map fun m => Task.spawn fun _ => attempt m.toUInt32
    match ← round.findSomeM? Task.get with
    | some hit => return some hit
    | none => scan attempt workers hw (first + n) (remaining - n)
termination_by remaining

/-- More workers than this are not put to work. -/
abbrev workersMax : Nat := 16

/-- The workers for a request of so many threads; none asked for leaves the number open. -/
def workersFor (threads : Nat) : Nat := if threads = 0 then 4 else min threads workersMax

theorem workersFor_pos (threads : Nat) : 0 < workersFor threads := by
  unfold workersFor workersMax
  split <;> omega

/-- The least of `count` nonces from `start` on whose hash meets the difficulty. -/
def leastHit (hash : Bytes → Except Refusal Digest) (blob : Bytes) (difficulty : UInt64)
    (start count : UInt32) (threads : Nat) : Except Refusal (Option Hit) :=
  scan (attempt hash blob difficulty) (workersFor threads) (workersFor_pos threads) start.toNat
    (lastNonce start count + 1 - start.toNat)

end ProofOfWork.NonceSearch

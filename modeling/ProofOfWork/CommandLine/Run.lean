import ProofOfWork.Blank
import ProofOfWork.CommandLine.Command
import ProofOfWork.CommandLine.Failure
import ProofOfWork.NonceSearch
import ProofOfWork.Sha256.Padding

/-!
# ProofOfWork.CommandLine.Run — what the commands print

A command prints all of its result or nothing; a failure is about the first fault in the order of the
checks, and within a list of messages about the first faulty message.
-/

namespace ProofOfWork.CommandLine

open Cryptonight Processor NonceSearch

/-! ### Processor features -/

def padName (name : String) : String := name ++ String.ofList (List.replicate (12 - name.length) ' ')

def featureLine (f : Features) (x : Feature) : String :=
  padName x.name ++ " " ++ (if f.has x then "yes" else "no")

/-- Whether the accelerated hash can be used. -/
def fastAvailable (f : Features) : Bool := acceleratedNeeds.all f.has

/-- The features that are there, or each with its state; then what is chosen by them. -/
def featureLines (f : Features) (all : Bool) : List String :=
  (if all then Feature.all.map (featureLine f)
    else ["features: " ++ String.intercalate " " f.enabled]) ++
  ["backend:  " ++ (Kind.best f).name,
    "fast cn:  " ++ (if fastAvailable f then "aes-ni" else "unavailable")]

/-! ### Digests of messages -/

def messageBytes (hex : Bool) (message : String) : Except Failure Bytes :=
  if hex then (Hex.decode message).mapError (.messageText message) else .ok message.toUTF8.data

def messageBlock (hex : Bool) (message : String) : Except Failure Sha256.Block := do
  match Sha256.oneBlock? (← messageBytes hex message) with
  | some block => return block
  | none => .error (.messageLength message)

def digestLine (message : String) (d : Digest) : String := Hex.encode d.toArray ++ "  " ++ message

def messageLines (f : Features) (messages : List String) (hex : Bool) (backend : Option Kind) :
    Except Failure (List String) := do
  let kind := backend.getD (Kind.best f)
  let blocks ← messages.mapM (messageBlock hex)
  let digests ← (Sha256.digestsWith f kind blocks).mapError (.backend kind)
  return List.zipWith digestLine messages digests

/-! ### Hash of a blob -/

/-- Blank characters around the digits of a blob do not count. -/
def readBlob (text : String) : Except Failure Bytes := do
  let blob ← (Hex.decode (trimBlank text)).mapError .blobText
  if blob = #[] then .error .emptyBlob else .ok blob

def blobDigest (f : Features) (blob : Bytes) : BlobRules → Except Failure Digest
  | .fast => do
    (checkFast blob).mapError .blob
    if fastAvailable f then (hashFast blob).mapError .refusal else .error .noAcceleration
  | .variant v =>
    if v = .v1 ∧ blob.size < variant1Min then .error .untweakable
    else (hashVariant v blob).mapError .refusal
  | .own => do
    (checkStandard blob).mapError .blob
    (hashStandard blob).mapError .refusal

def blobLines (f : Features) (text : String) (rules : BlobRules) : Except Failure (List String) := do
  let d ← blobDigest f (← readBlob text) rules
  return [Hex.encode d.toArray]

/-! ### Search for a nonce -/

/-- The fast path is taken where it is asked for and can be; elsewhere the standard one, which has
the same digests. -/
def searchHash (f : Features) (fast : Bool) (blob : Bytes) : Bytes → Except Refusal Digest :=
  if fast && (checkFast blob).isOk && fastAvailable f then hashFast else hashStandard

def search (f : Features) (job : SearchJob) : Except Failure Hit := do
  let blob ← readBlob job.blob
  if blob.size < blobMin then .error (.noRoomForNonce blob.size)
  else
    (checkStandard blob).mapError .blob
    if job.count = 0 then .error .noNonces
    else
      let hit ← (leastHit (searchHash f job.fast blob) blob job.difficulty job.start job.count
        job.threads).mapError .refusal
      match hit with
      | some hit => return hit
      | none =>
        .error (.noHit job.start.toNat (lastNonce job.start job.count) job.difficulty)

def hitLines (hit : Hit) : List String :=
  ["nonce:  " ++ toString hit.nonce.toNat, "hash:   " ++ Hex.encode hit.digest.toArray]

/-! ### All commands -/

/-- The lines that a command prints. -/
def Command.lines (f : Features) : Command → Except Failure (List String)
  | features all => .ok (featureLines f all)
  | sha256 messages hex backend => messageLines f messages hex backend
  | cryptonight blob rules => blobLines f blob rules
  | search job => (CommandLine.search f job).map hitLines

/-- How a command goes about its work. -/
def Command.notes (f : Features) : Command → List String
  | sha256 messages _ backend =>
    let kind := backend.getD (Kind.best f)
    ["hashing " ++ toString messages.length ++ " messages on " ++ kind.name ++ ", " ++
      toString kind.way ++ " at a time"]
  | search job =>
    ["trying " ++ toString job.count.toNat ++ " nonces from " ++ toString job.start.toNat ++
      " on, " ++ toString (workersFor job.threads) ++ " at a time"]
  | _ => []

end ProofOfWork.CommandLine

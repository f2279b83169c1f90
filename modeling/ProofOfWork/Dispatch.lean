import ProofOfWork.Lanes.Backend
import ProofOfWork.Processor.Detection

/-!
# ProofOfWork.Dispatch — choosing a lane unit for a processor
-/

namespace ProofOfWork

open Lanes Processor

/-- The lane units that can be asked for by name. -/
inductive Kind
  | avx2
  | sse2
  | swar2
  | soft16
  | scalar
deriving DecidableEq, Repr

namespace Kind

/-- In order of preference. -/
def all : List Kind := [avx2, sse2, swar2, soft16, scalar]

def name : Kind → String
  | avx2 => "avx2"
  | sse2 => "sse2"
  | swar2 => "swar2"
  | soft16 => "soft16"
  | scalar => "scalar"

def ofName? (s : String) : Option Kind := all.find? fun k => k.name = s

private theorem sixteen_pos : 0 < 16 := by decide

def backend : Kind → Backend
  | avx2 => .avx2
  | sse2 => .sse2
  | swar2 => .swar2
  | soft16 => .soft 16 sixteen_pos
  | scalar => .scalar

def unit (k : Kind) : LaneUnit := k.backend.unit

def way (k : Kind) : Nat := k.unit.way

theorem way_pos (k : Kind) : 0 < k.way := by cases k <;> decide

/-- The feature that a processor must have for this kind. -/
def needs : Kind → Option Feature
  | avx2 => some .avx2
  | sse2 => some .sse2
  | _ => none

def isSupported (k : Kind) (f : Features) : Bool := k.needs.all f.has

/-- Bytes of blocks and of digests for one block a lane. -/
def bufferSizes (k : Kind) : Nat × Nat := (64 * k.way, 32 * k.way)

/-- The widest vector unit there is, else two packed words. -/
def best (f : Features) : Kind := ([avx2, sse2].find? fun k => k.isSupported f).getD swar2

/-- Whether a kind can be used, and if not, for want of which feature. -/
def require (k : Kind) (f : Features) : Except MissingFeature Unit := f.require k.needs.toList

end Kind

end ProofOfWork

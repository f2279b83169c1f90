import ProofOfWork.Processor.Feature

/-!
# ProofOfWork.Processor.Snapshot — found features in one word

Each feature has the bit of its place in reporting order.
-/

namespace ProofOfWork.Processor

structure Snapshot where
  bits : UInt64
deriving DecidableEq, Repr

namespace Snapshot

def empty : Snapshot := ⟨0⟩

def mask (f : Feature) : UInt64 := 1 <<< f.position.toUInt64

def has (s : Snapshot) (f : Feature) : Bool := s.bits &&& mask f != 0

/-- Adds a feature that is found; none is ever taken away. -/
def record (s : Snapshot) (f : Feature) (found : Bool) : Snapshot :=
  if found then ⟨s.bits ||| mask f⟩ else s

end Snapshot

end ProofOfWork.Processor

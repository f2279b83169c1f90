import ProofOfWork.Lanes.Span

/-!
# ProofOfWork.Lanes.LaneUnit — one operation on many words

A lane unit holds `way` words of 32 bits in one group and works on all of them at once.  How a group
is stored is the unit's own affair; `toLanes` shows the words in it.
-/

namespace ProofOfWork.Lanes

structure LaneUnit where
  Group : Type
  way : Nat
  name : String
  /-- Whether loads and saves check the span of the whole group first. -/
  guarded : Bool
  ofLanes : Vector UInt32 way → Group
  toLanes : Group → Vector UInt32 way
  broadcast : UInt32 → Group
  add : Group → Group → Group
  xor : Group → Group → Group
  or : Group → Group → Group
  and : Group → Group → Group
  /-- The second operand where the first is clear. -/
  andNot : Group → Group → Group
  shr : Fin 32 → Group → Group
  shl : Fin 32 → Group → Group
  rol : Fin 32 → Group → Group

namespace LaneUnit

variable (u : LaneUnit)

def add3 (x y z : u.Group) : u.Group := u.add (u.add x y) z

def add4 (w x y z : u.Group) : u.Group := u.add (u.add w x) (u.add y z)

/-- Why a span cannot be used on a buffer of this length. -/
def spanError (s : Span) (len : Nat) : LaneError :=
  if u.guarded && !s.fits u.way len then .tooSmall u.way s len else .outOfRange

/-- A span that may be used: it passes the check, if the unit makes one, and is inside. -/
def Admits (s : Span) (len : Nat) : Prop :=
  (u.guarded → s.fits u.way len) ∧ s.Inside u.way len

instance (s : Span) (len : Nat) : Decidable (u.Admits s len) :=
  inferInstanceAs (Decidable (_ ∧ _))

def load (order : ByteOrder) (s : Span) (buf : Bytes) : Except LaneError u.Group :=
  if h : u.Admits s buf.size then .ok (u.ofLanes (gather order s buf h.2))
  else .error (u.spanError s buf.size)

def save (order : ByteOrder) (x : u.Group) (s : Span) (buf : Bytes) : Except LaneError Bytes :=
  if u.Admits s buf.size then .ok (scatter order s (u.toLanes x) buf)
  else .error (u.spanError s buf.size)

end LaneUnit

end ProofOfWork.Lanes

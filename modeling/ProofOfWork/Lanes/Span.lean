import ProofOfWork.Bytes

/-!
# ProofOfWork.Lanes.Span — where the lanes of a group stand in a buffer

Lane `i` of a group is the four bytes at `offset + i * stride`.  Positions are machine sizes: a sum
or product that does not fit in 64 bits is noticed, and counts as outside every buffer.
-/

namespace ProofOfWork

/-! ### Machine sizes -/

def checkedAdd (a b : Nat) : Option Nat := if a + b < UInt64.size then some (a + b) else none

def checkedMul (a b : Nat) : Option Nat := if a * b < UInt64.size then some (a * b) else none

namespace Lanes

/-! ### Spans -/

structure Span where
  stride : Nat
  offset : Nat
deriving DecidableEq, Repr

namespace Span

def address (s : Span) (i : Nat) : Nat := s.offset + i * s.stride

/-- One past the last byte of the last of `way` lanes. -/
def limit? (s : Span) (way : Nat) : Option Nat := do
  let reach ← checkedMul (way - 1) s.stride
  let last ← checkedAdd reach s.offset
  checkedAdd last 4

/-- The check made once for a whole group: its last lane ends inside the buffer. -/
def fits (s : Span) (way len : Nat) : Bool := (s.limit? way).any (· ≤ len)

/-- Every lane is inside the buffer. -/
def Inside (s : Span) (way len : Nat) : Prop := ∀ i < way, s.address i + 4 ≤ len

instance (s : Span) (way len : Nat) : Decidable (s.Inside way len) :=
  inferInstanceAs (Decidable (∀ i < way, s.address i + 4 ≤ len))

end Span

/-! ### Errors -/

inductive LaneError
  /-- The check of a whole group failed. -/
  | tooSmall (way : Nat) (span : Span) (len : Nat)
  /-- A word outside the buffer was reached for. -/
  | outOfRange
deriving DecidableEq, Repr

/-- Reaching outside a buffer has no wording of its own. -/
def LaneError.message? : LaneError → Option String
  | tooSmall way span len =>
    some ("lane buffer too small: " ++ toString way ++ " lanes at stride " ++ toString span.stride ++
      " from offset " ++ toString span.offset ++ " in " ++ toString len ++ " bytes")
  | outOfRange => none

/-! ### Words -/

/-- Writes four bytes; those outside the buffer are dropped. -/
def putWord (buf : Bytes) (pos : Nat) (w : Vector UInt8 4) : Bytes :=
  Nat.fold 4 (fun i _ buf => buf.setIfInBounds (pos + i) w[i]) buf

/-- The words of all lanes. -/
def gather (order : ByteOrder) {way : Nat} (s : Span) (buf : Bytes) (h : s.Inside way buf.size) :
    Vector UInt32 way :=
  Vector.ofFn fun i => order.read (slice buf.toVector (s.address i) 4 (h i i.isLt))

/-- Lanes are written in order, so where they overlap the later one stays. -/
def scatter (order : ByteOrder) {way : Nat} (s : Span) (x : Vector UInt32 way) (buf : Bytes) : Bytes :=
  Nat.fold way (fun i _ buf => putWord buf (s.address i) (order.write x[i])) buf

end Lanes

end ProofOfWork

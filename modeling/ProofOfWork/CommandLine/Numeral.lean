/-!
# ProofOfWork.CommandLine.Numeral — whole numbers as option values

Decimal digits after an optional sign, with nothing between or around them.
-/

namespace ProofOfWork.CommandLine

def digitsValue? (cs : List Char) : Option Nat :=
  if cs = [] then none
  else cs.foldlM (fun n c => if c.isDigit then some (10 * n + (c.toNat - 48)) else none) 0

/-- A plus sign may come before the digits. -/
def unsigned? (text : String) : Option Nat :=
  match text.toList with
  | '+' :: cs => digitsValue? cs
  | cs => digitsValue? cs

/-- Either sign may come before the digits. -/
def signed? (text : String) : Option Int :=
  match text.toList with
  | '-' :: cs => (digitsValue? cs).map fun n => -(n : Int)
  | _ => (unsigned? text).map Int.ofNat

def word64? (text : String) : Option UInt64 :=
  (unsigned? text).bind fun n => if n < UInt64.size then some n.toUInt64 else none

/-- Zero may be written with a minus sign. -/
def word32? (text : String) : Option UInt32 :=
  (signed? text).bind fun n => if 0 ≤ n ∧ n.toNat < UInt32.size then some n.toNat.toUInt32 else none

end ProofOfWork.CommandLine

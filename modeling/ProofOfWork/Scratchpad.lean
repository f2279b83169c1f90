import ProofOfWork.Aes.KeySchedule
import ProofOfWork.Keccak

/-!
# ProofOfWork.Scratchpad — filling, stirring and folding a pad of lines

A pad is any number of lines.  It is filled from a hash state and folded back into one in groups of
eight lines; lines after the last full group play no part.  `shuffleAdd?` turns the three other
lines of a group of four.
-/

namespace ProofOfWork

/-- Two neighbouring lanes of a state as a line. -/
def Keccak.State.line (s : Keccak.State) (i : Fin 12) : Line := ⟨s[2 * i.val], s[2 * i.val + 1]⟩

abbrev Scratchpad (n : Nat) := Vector Line n

namespace Scratchpad

variable {n : Nat}

/-- The lines of a message; a rest shorter than a line is left out. -/
def ofMessage (b : Bytes) : Scratchpad (b.size / 16) :=
  Vector.ofFn fun i => Line.ofBytes (b.block 16 i (Bytes.block_in_range i.isLt))

def bytes (pad : Scratchpad n) : Bytes := pad.toArray.flatMap fun x => x.bytes.toArray

/-! ### The state's part in a pad -/

/-- Lanes 8 to 23 of the state, as eight lines. -/
def text (s : Keccak.State) : Vector Line 8 := Vector.ofFn fun i => s.line ⟨4 + i.val, by omega⟩

/-- The state with other lines in its lanes 8 to 23. -/
def withText (s : Keccak.State) (t : Vector Line 8) : Keccak.State :=
  Vector.ofFn fun i =>
    if h : 8 ≤ i.val ∧ i.val < 24 then
      let x := t[(i.val - 8) / 2]
      if i.val % 2 = 0 then x.lo else x.hi
    else s.get i

def fillKeys (s : Keccak.State) : Aes.RoundKeys := Aes.expandKey (s.line 0) (s.line 1)

def foldKeys (s : Keccak.State) : Aes.RoundKeys := Aes.expandKey (s.line 2) (s.line 3)

/-! ### Filling -/

/-- Line `k` becomes the pseudo-round of the line eight places back; the first eight come from the
text. -/
def fillLine (keys : Aes.RoundKeys) (t : Vector Line 8) (k : Nat) (hk : k < n)
    (pad : Scratchpad n) : Scratchpad n :=
  let source := if h : k < 8 then t[k] else pad[k - 8]
  pad.set k (Aes.pseudoRound keys source)

def explode (s : Keccak.State) (pad : Scratchpad n) : Scratchpad n :=
  let keys := fillKeys s
  let t := text s
  Nat.fold (8 * (n / 8)) (fun k hk pad => fillLine keys t k (by omega) pad) pad

/-! ### Folding -/

/-- Line `k` is added to line `k % 8` of the text, which then passes a pseudo-round. -/
def foldLine (keys : Aes.RoundKeys) (pad : Scratchpad n) (k : Nat) (hk : k < n)
    (t : Vector Line 8) : Vector Line 8 :=
  t.set (k % 8) (Aes.pseudoRound keys (t[k % 8] ^^^ pad[k]))

def implode (s : Keccak.State) (pad : Scratchpad n) : Keccak.State :=
  let keys := foldKeys s
  withText s (Nat.fold (8 * (n / 8)) (fun k hk t => foldLine keys pad k (by omega) t) (text s))

/-! ### Stirring -/

/-- The lines at `j1`, `j2` and `j3` move on to `j2`, `j3` and `j1` in the order 1 to 2, 2 to 3 and
3 to 1, each with a line added on the way. -/
def shuffleAdd (pad : Scratchpad n) (j1 j2 j3 : Fin n) (a b0 b1 : Line) : Scratchpad n :=
  let x1 := pad.get j1
  let x2 := pad.get j2
  let x3 := pad.get j3
  ((pad.set j1 (x3 + b1) j1.isLt).set j3 (x2 + a) j3.isLt).set j2 (x1 + b0) j2.isLt

/-- The shuffle of the lines beside line `j`; none where one of them is outside the pad. -/
def shuffleAdd? (pad : Scratchpad n) (j : Nat) (a b0 b1 : Line) : Option (Scratchpad n) :=
  if h : j ^^^ 1 < n ∧ j ^^^ 2 < n ∧ j ^^^ 3 < n then
    some (pad.shuffleAdd ⟨j ^^^ 1, h.1⟩ ⟨j ^^^ 2, h.2.1⟩ ⟨j ^^^ 3, h.2.2⟩ a b0 b1)
  else none

end Scratchpad

/-! ### The pad of two mebibytes -/

abbrev lineCount : Nat := 131072

abbrev Pad := Scratchpad lineCount

/-- The line that an address names: bits 4 to 20 of the address. -/
def lineIndex (address : UInt64) : Fin lineCount :=
  ⟨((address &&& 0x1ffff0) >>> 4).toNat, by
    have h : address.toNat &&& 0x1ffff0 ≤ 0x1ffff0 := Nat.and_le_right
    rw [UInt64.toNat_shiftRight, UInt64.toNat_and]
    change (address.toNat &&& 0x1ffff0) >>> 4 < 131072
    rw [Nat.shiftRight_eq_div_pow]
    omega⟩

/-- Line `j` and the lines beside it share a group of four, so they share the pad. -/
def beside (j : Fin lineCount) (d : Fin 4) : Fin lineCount :=
  ⟨j.val ^^^ d.val, Nat.xor_lt_two_pow (n := 17) j.isLt (by omega)⟩

end ProofOfWork

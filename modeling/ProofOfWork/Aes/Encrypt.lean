import ProofOfWork.Aes.SBox
import ProofOfWork.Line

/-!
# ProofOfWork.Aes.Encrypt — the round instruction of the processor

The encryption round as the processor's instruction set describes it: the rows of the state are
shifted, every byte is substituted, every column is mixed, and the key is added.  The byte in row
`r` and column `c` of the state is byte `4 * c + r` of the line.
-/

namespace ProofOfWork.Aes

/-! ### Columns -/

/-- The column with these bytes in its rows. -/
@[inline] def column (r0 r1 r2 r3 : UInt8) : UInt32 :=
  r0.toUInt32 ||| r1.toUInt32 <<< 8 ||| r2.toUInt32 <<< 16 ||| r3.toUInt32 <<< 24

@[inline] def row (r : Fin 4) (c : UInt32) : UInt8 := (c >>> (8 * r.val).toUInt32).toUInt8

@[inline] def onColumns (f : UInt32 → UInt32) (x : Line) : Line :=
  Line.ofWords (f x.word0) (f x.word1) (f x.word2) (f x.word3)

/-! ### Steps -/

/-- Row `r` moves `r` columns towards the first. -/
@[inline] def shiftRows (x : Line) : Line :=
  let c0 := x.word0
  let c1 := x.word1
  let c2 := x.word2
  let c3 := x.word3
  Line.ofWords (column (row 0 c0) (row 1 c1) (row 2 c2) (row 3 c3))
    (column (row 0 c1) (row 1 c2) (row 2 c3) (row 3 c0))
    (column (row 0 c2) (row 1 c3) (row 2 c0) (row 3 c1))
    (column (row 0 c3) (row 1 c0) (row 2 c1) (row 3 c2))

@[inline] def subColumn (c : UInt32) : UInt32 :=
  column (sub (row 0 c)) (sub (row 1 c)) (sub (row 2 c)) (sub (row 3 c))

@[inline] def triple (b : UInt8) : UInt8 := double b ^^^ b

/-- Each byte of the result is twice the byte in its row, three times the next one and once the
other two. -/
@[inline] def mixColumn (c : UInt32) : UInt32 :=
  let a0 := row 0 c
  let a1 := row 1 c
  let a2 := row 2 c
  let a3 := row 3 c
  column (double a0 ^^^ triple a1 ^^^ a2 ^^^ a3) (double a1 ^^^ triple a2 ^^^ a3 ^^^ a0)
    (double a2 ^^^ triple a3 ^^^ a0 ^^^ a1) (double a3 ^^^ triple a0 ^^^ a1 ^^^ a2)

def encrypt (x key : Line) : Line :=
  onColumns mixColumn (onColumns subColumn (shiftRows x)) ^^^ key

end ProofOfWork.Aes

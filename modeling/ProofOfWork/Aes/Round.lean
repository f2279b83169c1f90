import ProofOfWork.Aes.SBox
import ProofOfWork.Line

/-!
# ProofOfWork.Aes.Round — the encryption round on a line

The byte in row `r` and column `c` of the state is byte `4 * c + r` of the line, so a column is a
word with row 0 lowest.  One table holds what a byte of row 0 adds to its column after substitution
and mixing; a byte of row `r` adds the same word turned up by `r` bytes.
-/

namespace ProofOfWork.Aes

/-- What a state byte of row 0 adds to its column: two, one, one and three times its substitute. -/
def mixed (b : UInt8) : UInt32 :=
  let s := sub b
  let d := double s
  leWord32 #v[d, s, s, d ^^^ s]

def mixedTable : Vector UInt32 256 := Vector.ofFn fun i => mixed i.val.toUInt8

@[inline] def lookup (b : UInt8) : UInt32 := mixedTable.get ⟨b.toNat, b.toNat_lt⟩

/-- A column of the round's result; `c0` to `c3` are the columns its rows 0 to 3 come from. -/
@[inline] def roundColumn (c0 c1 c2 c3 : UInt32) : UInt32 :=
  lookup c0.toUInt8 ^^^ rotl32 (lookup (c1 >>> 8).toUInt8) 8 ^^^
    rotl32 (lookup (c2 >>> 16).toUInt8) 16 ^^^ rotl32 (lookup (c3 >>> 24).toUInt8) 24

/-- Substitute, shift the rows, mix the columns, add the key. -/
def round (x key : Line) : Line :=
  let c0 := x.word0
  let c1 := x.word1
  let c2 := x.word2
  let c3 := x.word3
  Line.ofWords (roundColumn c0 c1 c2 c3) (roundColumn c1 c2 c3 c0) (roundColumn c2 c3 c0 c1)
    (roundColumn c3 c0 c1 c2) ^^^ key

abbrev RoundKeys := Vector Line 10

/-- Ten rounds, one a key, with no key added before the first. -/
def pseudoRound (keys : RoundKeys) (x : Line) : Line := keys.foldl round x

end ProofOfWork.Aes

import ProofOfWork.Aes.KeySchedule

/-!
# ProofOfWork.Aes.KeyAssist — the key schedule on whole lines

The schedule as the processor's key-generation instruction supports it: two lines hold the last
eight words, and a step replaces first one, then the other.
-/

namespace ProofOfWork.Aes

/-- Substituted words 1 and 3 of a line, each beside its turned form with the constant added. -/
def keyGenAssist (rc : UInt32) (x : Line) : Line :=
  let s1 := subWord x.word1
  let s3 := subWord x.word3
  Line.ofWords s1 (rotWord s1 ^^^ rc) s3 (rotWord s3 ^^^ rc)

/-- The words move up one place; the lowest becomes zero. -/
def shiftWord (x : Line) : Line := ⟨x.lo <<< 32, x.hi <<< 32 ||| x.lo >>> 32⟩

/-- Each word plus all the words below it. -/
def runningXor (x : Line) : Line :=
  let t1 := shiftWord x
  let t2 := shiftWord t1
  let t3 := shiftWord t2
  x ^^^ t1 ^^^ t2 ^^^ t3

def broadcast (w : UInt32) : Line := Line.ofWords w w w w

/-- The next two keys after `k`, the second of them from the first. -/
def nextKeys (rc : UInt32) (k : Line × Line) : Line × Line :=
  let x0 := runningXor k.1 ^^^ broadcast (keyGenAssist rc k.2).word3
  let x2 := runningXor k.2 ^^^ broadcast (keyGenAssist 0 x0).word2
  (x0, x2)

def assistedKeys (k0 k1 : Line) : RoundKeys :=
  let p0 := (k0, k1)
  let p1 := nextKeys 1 p0
  let p2 := nextKeys 2 p1
  let p3 := nextKeys 4 p2
  let p4 := nextKeys 8 p3
  #v[p0.1, p0.2, p1.1, p1.2, p2.1, p2.2, p3.1, p3.2, p4.1, p4.2]

/-- The keys from the two lines that a key starts with. -/
def assistedRoundKeys? (key : Bytes) : Option RoundKeys := do
  let k0 ← Line.ofMessage? (key.extract 0 16)
  let k1 ← Line.ofMessage? (key.extract 16 32)
  return assistedKeys k0 k1

end ProofOfWork.Aes

import ProofOfWork.Cryptonight.IntegerStep
import ProofOfWork.Scratchpad
import ProofOfWork.WideProduct

/-!
# ProofOfWork.Cryptonight.Mixing — the passes over the pad

A pass reads and writes two lines whose places hang on what was read before: an AES round on the
first, a 128-bit product with the second.  Variant 1 is the plain pass with two tweaks on what is
written; variant 2 also stirs the lines around both places and mixes in the integer step.
-/

namespace ProofOfWork.Cryptonight

/-- The 128-bit product of two words, upper half first. -/
@[inline] def productLine (x y : UInt64) : Line := ⟨mulHigh x y, x * y⟩

/-! ### Variants 0 and 1 -/

structure Mixer where
  pad : Pad
  a : Line
  b : Line

/-- Flips two bits of byte 11, chosen by bits 0, 4 and 5 of that byte. -/
def flipByte11 (x : Line) : Line :=
  let v := (x.hi >>> 24).toUInt8
  let i := ((v >>> 3) &&& 6 ||| v &&& 1) <<< 1
  let flip := (0x75310 : UInt32) >>> i.toUInt32 &&& 0x30
  ⟨x.lo, x.hi ^^^ flip.toUInt64 <<< 24⟩

namespace Mixer

/-- The first half of a pass: a round on the line that `a` names; `flip` changes the line that is
written there. -/
@[specialize] def roundStep (flip : Line → Line) (m : Mixer) : Mixer :=
  let j := lineIndex m.a.lo
  let c := Aes.round m.pad[j] m.a
  ⟨m.pad.set j (flip (c ^^^ m.b)), m.a, c⟩

/-- The second half: a product with the line that the round's result names; `tweak` is added to the
upper half of the line that is written there. -/
@[inline] def productStep (tweak : UInt64) (m : Mixer) : Mixer :=
  let j := lineIndex m.b.lo
  let c := m.pad[j]
  let sum := m.a + productLine m.b.lo c.lo
  ⟨m.pad.set j ⟨sum.lo, sum.hi ^^^ tweak⟩, c ^^^ sum, m.b⟩

@[specialize] def pass (flip : Line → Line) (tweak : UInt64) (m : Mixer) : Mixer :=
  productStep tweak (roundStep flip m)

def passV0 : Mixer → Mixer := pass (fun x => x) 0

def passV1 (tweak : UInt64) : Mixer → Mixer := pass flipByte11 tweak

end Mixer

/-! ### Variant 2 -/

structure ShufflingMixer where
  pad : Pad
  a : Line
  b0 : Line
  b1 : Line
  math : IntegerStep

namespace ShufflingMixer

def pass (m : ShufflingMixer) : ShufflingMixer :=
  let j := lineIndex m.a.lo
  let c1 := Aes.round m.pad[j] m.a
  let pad := Scratchpad.shuffleAdd m.pad (beside j 1) (beside j 2) (beside j 3) m.a m.b0 m.b1
  let pad := pad.set j (c1 ^^^ m.b0)
  let j := lineIndex c1.lo
  let (c2, math) := m.math.step pad[j] c1
  let d := productLine c1.lo c2.lo
  let j1 := beside j 1
  let pad := pad.set j1 (pad[j1] ^^^ d)
  let d := d ^^^ pad[beside j 2]
  let pad := Scratchpad.shuffleAdd pad j1 (beside j 2) (beside j 3) m.a m.b0 m.b1
  let sum := m.a + d
  ⟨pad.set j sum, c2 ^^^ sum, c1, m.b0, math⟩

end ShufflingMixer

end ProofOfWork.Cryptonight

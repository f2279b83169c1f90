import ProofOfWork.Proofs.Cryptonight.Accelerated
import ProofOfWork.Proofs.Cryptonight.Admission

/-!
# ProofOfWork.Proofs.Cryptonight.Checked — the hash with every access and operation checked

The pad is plain memory here: an array of lines that is read and written at numbers, each of which
may be outside.  A division asks for its divisor, a product or a shift for the room of its result,
and the tweak for its eight bytes.  All three variants run in one loop.  No check ever fails once
the pad has its lines and the blob its tweak (`run_of_pass`), and then the results are those of the
passes on a pad of fixed size (`hash_eq_ok_iff`).
-/

namespace ProofOfWork.Cryptonight

namespace Checked

/-- What a check finds. -/
inductive Fault
  | outsidePad (place : Nat)
  | outsideBlob (place : Nat)
  | zeroDivisor
  | overflow
deriving DecidableEq, Repr

@[simp] theorem ok_bind {α β : Type} (a : α) (f : α → Except Fault β) :
    (Except.ok a >>= f) = f a := rfl

@[simp] theorem pure_eq_ok {α : Type} (a : α) : (pure a : Except Fault α) = .ok a := rfl

/-! ### Memory -/

def line (pad : Array Line) (j : Nat) : Except Fault Line :=
  if h : j < pad.size then .ok pad[j] else .error (.outsidePad j)

def setLine (pad : Array Line) (j : Nat) (x : Line) : Except Fault (Array Line) :=
  if h : j < pad.size then .ok (pad.set j x) else .error (.outsidePad j)

/-- The shuffle of the lines beside line `j`. -/
def shuffle (pad : Array Line) (j : Nat) (a b0 b1 : Line) : Except Fault (Array Line) :=
  match Scratchpad.shuffleAdd? pad.toVector j a b0 b1 with
  | some pad => .ok pad.toArray
  | none => .error (.outsidePad j)

/-- Eight bytes of a blob, the first one lowest. -/
def wordAt (blob : Bytes) (i : Nat) : Except Fault UInt64 :=
  if h : i + 8 ≤ blob.size then .ok (leWord64 (slice blob.toVector i 8 h))
  else .error (.outsideBlob (i + 8))

section Memory

variable {n : Nat} (pad : Scratchpad n)

theorem line_toArray {j : Nat} (h : j < n) : line pad.toArray j = .ok pad[j] :=
  dif_pos (by rwa [Vector.size_toArray])

theorem setLine_toArray {j : Nat} (h : j < n) (x : Line) :
    setLine pad.toArray j x = .ok (pad.set j x).toArray :=
  dif_pos (by rwa [Vector.size_toArray])

theorem shuffle_toArray {j : Nat} (a b0 b1 : Line)
    (h : j ^^^ 1 < n ∧ j ^^^ 2 < n ∧ j ^^^ 3 < n) :
    shuffle pad.toArray j a b0 b1 = .ok (pad.shuffleAdd ⟨j ^^^ 1, h.1⟩ ⟨j ^^^ 2, h.2.1⟩
      ⟨j ^^^ 3, h.2.2⟩ a b0 b1).toArray := by
  obtain ⟨lines, rfl⟩ := pad
  have hsome : Scratchpad.shuffleAdd? lines.toVector j a b0 b1 = some _ := dif_pos h
  simp only [shuffle, hsome]

end Memory

/-! ### Arithmetic -/

def quotient (x y : UInt64) : Except Fault UInt64 :=
  if y = 0 then .error .zeroDivisor else .ok (x / y)

def remainder (x y : UInt64) : Except Fault UInt64 :=
  if y = 0 then .error .zeroDivisor else .ok (x % y)

/-- The product in 128 bits, upper half first. -/
def product (x y : UInt64) : Except Fault Line :=
  let p := x.toNat * y.toNat
  if p < UInt64.size * UInt64.size then .ok ⟨(p / UInt64.size).toUInt64, p.toUInt64⟩
  else .error .overflow

def byteProduct (x y : UInt8) : Except Fault UInt8 :=
  if x.toNat * y.toNat < UInt8.size then .ok (x * y) else .error .overflow

def shiftDown (x amount : UInt32) : Except Fault UInt32 :=
  if amount < 32 then .ok (x >>> amount) else .error .overflow

theorem product_eq (x y : UInt64) : product x y = .ok (productLine x y) := by
  have hfits : x.toNat * y.toNat < UInt64.size * UInt64.size :=
    Nat.mul_lt_mul'' x.toNat_lt_size y.toNat_lt_size
  have hhigh : (x.toNat * y.toNat / UInt64.size).toUInt64 = mulHigh x y := by
    rw [← toNat_mulHigh]
    exact UInt64.ofNat_toNat
  have hlow : (x.toNat * y.toNat).toUInt64 = x * y := by
    apply UInt64.toNat_inj.mp
    rw [UInt64.toNat_mul]
    exact UInt64.toNat_ofNat'
  rw [product, if_pos hfits, hhigh, hlow]
  rfl

/-! ### The round -/

def double (b : UInt8) : Except Fault UInt8 := do return b <<< 1 ^^^ (← byteProduct (b >>> 7) 0x1b)

theorem double_eq (b : UInt8) : double b = .ok (Aes.double b) := by
  have hproduct : byteProduct (b >>> 7) 0x1b = .ok ((b >>> 7) * 0x1b) := by
    rcases Aes.carry_cases b with h | h <;> rw [h] <;> rfl
  rw [double, hproduct]
  rfl

/-- Doubling the sum of two neighbours saves one of the two doublings of a row. -/
def mixColumn (c : UInt32) : Except Fault UInt32 := do
  let a0 := Aes.row 0 c
  let a1 := Aes.row 1 c
  let a2 := Aes.row 2 c
  let a3 := Aes.row 3 c
  return Aes.column ((← double (a0 ^^^ a1)) ^^^ a1 ^^^ a2 ^^^ a3)
    ((← double (a1 ^^^ a2)) ^^^ a2 ^^^ a3 ^^^ a0) ((← double (a2 ^^^ a3)) ^^^ a3 ^^^ a0 ^^^ a1)
    ((← double (a3 ^^^ a0)) ^^^ a0 ^^^ a1 ^^^ a2)

def round (x key : Line) : Except Fault Line := do
  let s := Aes.onColumns Aes.subColumn (Aes.shiftRows x)
  return Line.ofWords (← mixColumn s.word0) (← mixColumn s.word1) (← mixColumn s.word2)
    (← mixColumn s.word3) ^^^ key

theorem mixColumn_eq (c : UInt32) : mixColumn c = .ok (Aes.mixColumn c) := by
  simp only [mixColumn, double_eq, ok_bind, pure_eq_ok, Aes.double_xor, Aes.mixColumn, Aes.triple]
  congr 2 <;> ac_rfl

theorem round_eq (x key : Line) : round x key = .ok (Aes.round x key) := by
  rw [← Aes.encrypt_eq_round]
  simp only [round, mixColumn_eq, ok_bind, pure_eq_ok]
  rfl

/-! ### The steps of the variants -/

/-- The tweak of byte 11: its table is moved down by an amount that the byte chooses. -/
def flip (x : Line) : Except Fault Line := do
  let v := (x.hi >>> 24).toUInt8
  let table ← shiftDown 0x75310 (Accelerated.flipPlace v).toUInt32
  return ⟨x.lo, x.hi ^^^ (table &&& 0x30).toUInt64 <<< 24⟩

theorem flipPlace_lt (v : UInt8) : (Accelerated.flipPlace v).toUInt32 < 32 := by
  revert v
  refine forall_byte ?_
  decide +kernel

theorem flip_eq (x : Line) : flip x = .ok (flipByte11 x) := by
  have hamount := flipPlace_lt (x.hi >>> 24).toUInt8
  simp only [flip, shiftDown, if_pos hamount, ok_bind, pure_eq_ok]
  rfl

def integerStep (m : IntegerStep) (c2 c1 : Line) : Except Fault (Line × IntegerStep) := do
  let d := IntegerStep.divisor c1 m.root
  let q ← quotient c1.hi d
  let r ← remainder c1.hi d
  let division := q.toUInt32.toUInt64 + r <<< 32
  return (⟨c2.lo ^^^ m.division ^^^ m.root <<< 32, c2.hi⟩,
    ⟨division, IntegerStep.integerRoot (c1.lo + division)⟩)

/-- The divisor has its highest bit. -/
theorem divisor_ne_zero (c : Line) (root : UInt64) : IntegerStep.divisor c root ≠ 0 := by
  intro hzero
  have hnat := congrArg UInt64.toNat hzero
  rw [IntegerStep.divisor, UInt32.toNat_toUInt64, UInt32.toNat_or] at hnat
  have hle : (0x80000001 : UInt32).toNat ≤ 0 := Nat.le_trans Nat.right_le_or (Nat.le_of_eq hnat)
  exact absurd hle (by decide)

theorem integerStep_eq (m : IntegerStep) (c2 c1 : Line) :
    integerStep m c2 c1 = .ok (m.step c2 c1) := by
  have hd := divisor_ne_zero c1 m.root
  simp only [integerStep, quotient, remainder, if_neg hd, ok_bind, pure_eq_ok]
  rfl

/-! ### The loop -/

/-- All that a pass of any variant reads and writes. -/
structure Loop where
  pad : Array Line
  a : Line
  b0 : Line
  b1 : Line
  math : IntegerStep

/-- The line that an address names. -/
def place (address : UInt64) : Nat := ((address &&& 0x1ffff0) >>> 4).toNat

/-- The first half of a pass: the pad after it, and the round's result. -/
def roundStep (v : Variant) (s : Loop) : Except Fault (Array Line × Line) := do
  let j := place s.a.lo
  let c1 ← round (← line s.pad j) s.a
  let pad ← if v = .v2 then shuffle s.pad j s.a s.b0 s.b1 else pure s.pad
  let written ← if v = .v1 then flip (c1 ^^^ s.b0) else pure (c1 ^^^ s.b0)
  return (← setLine pad j written, c1)

/-- What the product's line is added to, and the pad from then on. -/
def stir (v : Variant) (s : Loop) (pad : Array Line) (j : Nat) (d : Line) :
    Except Fault (Array Line × Line) :=
  if v = .v2 then do
    let pad ← setLine pad (j ^^^ 1) ((← line pad (j ^^^ 1)) ^^^ d)
    let d := d ^^^ (← line pad (j ^^^ 2))
    return (← shuffle pad j s.a s.b0 s.b1, d)
  else return (pad, d)

def productStep (v : Variant) (tweak : UInt64) (s : Loop) (pad : Array Line) (c1 : Line) :
    Except Fault Loop := do
  let j := place c1.lo
  let c2 ← line pad j
  let (c2, math) ← if v = .v2 then integerStep s.math c2 c1 else pure (c2, s.math)
  let (pad, d) ← stir v s pad j (← product c1.lo c2.lo)
  let sum := s.a + d
  let stored : Line := if v = .v1 then ⟨sum.lo, sum.hi ^^^ tweak⟩ else sum
  return ⟨← setLine pad j stored, c2 ^^^ sum, c1, if v = .v2 then s.b0 else s.b1, math⟩

def pass (v : Variant) (tweak : UInt64) (s : Loop) : Except Fault Loop := do
  let (pad, c1) ← roundStep v s
  productStep v tweak s pad c1

/-- So many passes, up to the first fault. -/
def run (v : Variant) (tweak : UInt64) : Nat → Loop → Except Fault Loop
  | 0, s => .ok s
  | k + 1, s => run v tweak k s >>= pass v tweak

/-! ### Passes on a pad of fixed size -/

theorem place_eq (address : UInt64) : place address = (lineIndex address).val := rfl

section Pass

variable (pad : Pad) (j : Fin lineCount)

theorem line_at : line pad.toArray j.val = .ok pad[j] := line_toArray pad j.isLt

theorem setLine_at (x : Line) : setLine pad.toArray j.val x = .ok (pad.set j x).toArray :=
  setLine_toArray pad j.isLt x

theorem shuffle_at (a b0 b1 : Line) : shuffle pad.toArray j.val a b0 b1
    = .ok (pad.shuffleAdd (beside j 1) (beside j 2) (beside j 3) a b0 b1).toArray :=
  shuffle_toArray pad a b0 b1 ⟨(beside j 1).isLt, (beside j 2).isLt, (beside j 3).isLt⟩

end Pass

theorem stir_v2 (s : Loop) (pad : Pad) (j : Fin lineCount) (d : Line) :
    let stirred : Pad := pad.set (beside j 1) (pad[beside j 1] ^^^ d)
    stir .v2 s pad.toArray j.val d = .ok ((Scratchpad.shuffleAdd stirred (beside j 1)
      (beside j 2) (beside j 3) s.a s.b0 s.b1).toArray, d ^^^ stirred[beside j 2]) := by
  intro stirred
  have hread : line pad.toArray (j.val ^^^ 1) = .ok pad[beside j 1] := line_at pad (beside j 1)
  have hwrite : setLine pad.toArray (j.val ^^^ 1) (pad[beside j 1] ^^^ d) = .ok stirred.toArray :=
    setLine_at pad (beside j 1) _
  have hnext : line stirred.toArray (j.val ^^^ 2) = .ok stirred[beside j 2] :=
    line_at stirred (beside j 2)
  simp only [stir, if_true, hread, hwrite, hnext, shuffle_at, ok_bind, pure_eq_ok]

/-- The loop's view of a mixer; what variant 2 alone uses is carried along. -/
def Loop.ofMixer (b1 : Line) (math : IntegerStep) (m : Mixer) : Loop :=
  ⟨m.pad.toArray, m.a, m.b, b1, math⟩

def Loop.ofShuffling (m : ShufflingMixer) : Loop := ⟨m.pad.toArray, m.a, m.b0, m.b1, m.math⟩

theorem pass_v0 (tweak : UInt64) (b1 : Line) (math : IntegerStep) (m : Mixer) :
    pass .v0 tweak (.ofMixer b1 math m) = .ok (.ofMixer b1 math m.passV0) := by
  have huntweaked (x : Line) : (⟨x.lo, x.hi ^^^ 0⟩ : Line) = x := by rw [UInt64.xor_zero]
  simp only [pass, roundStep, productStep, stir, Loop.ofMixer, place_eq, line_at, setLine_at,
    round_eq, product_eq, ok_bind, pure_eq_ok, reduceCtorEq, if_false]
  simp only [Mixer.passV0, Mixer.pass, Mixer.roundStep, Mixer.productStep, huntweaked]

theorem pass_v1 (tweak : UInt64) (b1 : Line) (math : IntegerStep) (m : Mixer) :
    pass .v1 tweak (.ofMixer b1 math m) = .ok (.ofMixer b1 math (m.passV1 tweak)) := by
  simp only [pass, roundStep, productStep, stir, Loop.ofMixer, place_eq, line_at, setLine_at,
    round_eq, product_eq, flip_eq, ok_bind, pure_eq_ok, reduceCtorEq, if_false, if_true]
  rfl

theorem pass_v2 (tweak : UInt64) (m : ShufflingMixer) :
    pass .v2 tweak (.ofShuffling m) = .ok (.ofShuffling m.pass) := by
  simp only [pass, roundStep, productStep, Loop.ofShuffling, place_eq, line_at, setLine_at,
    shuffle_at, stir_v2, round_eq, product_eq, integerStep_eq, ok_bind, pure_eq_ok, reduceCtorEq,
    if_false, if_true]
  rfl

/-- Where a pass does what `f` does, so do any number of passes. -/
theorem run_of_pass {α : Type} {view : α → Loop} {f : α → α} {v : Variant} {tweak : UInt64}
    (hpass : ∀ x, pass v tweak (view x) = .ok (view (f x))) (k : Nat) (x : α) :
    run v tweak k (view x) = .ok (view (Nat.repeat f k x)) := by
  induction k with
  | zero => rfl
  | succ k ih => rw [run, ih, ok_bind, hpass, Nat.repeat]

/-- No pass faults on a pad with all its lines, and the pad keeps them. -/
theorem run_total (v : Variant) (tweak : UInt64) (k : Nat) (s : Loop)
    (hs : s.pad.size = lineCount) :
    ∃ r, run v tweak k s = .ok r ∧ r.pad.size = lineCount := by
  obtain ⟨lines, a, b0, b1, math⟩ := s
  let pad : Pad := ⟨lines, hs⟩
  cases v with
  | v0 => exact ⟨_, run_of_pass (pass_v0 tweak b1 math) k ⟨pad, a, b0⟩, Vector.size_toArray _⟩
  | v1 => exact ⟨_, run_of_pass (pass_v1 tweak b1 math) k ⟨pad, a, b0⟩, Vector.size_toArray _⟩
  | v2 => exact ⟨_, run_of_pass (pass_v2 tweak) k ⟨pad, a, b0, b1, math⟩, Vector.size_toArray _⟩

/-! ### The hash -/

def concludeLines (s : Keccak.State) (lines : Array Line) : Digest :=
  finish (Keccak.permute (Scratchpad.implode s lines.toVector))

def tweakFor (v : Variant) (s : Keccak.State) (blob : Bytes) : Except Fault UInt64 :=
  if v = .v1 then do return s[24] ^^^ (← wordAt blob tweakOffset) else return 0

def startMath (s : Keccak.State) : IntegerStep := ⟨s.get 12, s.get 13⟩

def startLoop (s : Keccak.State) : Loop :=
  ⟨(Scratchpad.explode s freshPad).toArray, startA s, startB s, startB1 s, startMath s⟩

/-- The hash under a variant with so many passes, and with no check made beforehand. -/
def hashPasses (k : Nat) (v : Variant) (blob : Bytes) : Except Fault Digest := do
  let s := Keccak.hash blob
  let tweak ← tweakFor v s blob
  let last ← run v tweak k (startLoop s)
  return concludeLines s last.pad

def hash (v : Variant) (blob : Bytes) : Except Fault Digest := hashPasses passCount v blob

theorem concludeLines_toArray (s : Keccak.State) (pad : Pad) :
    concludeLines s pad.toArray = conclude s pad := by
  have himplode {n : Nat} (pad : Scratchpad n) :
      Scratchpad.implode s pad.toArray.toVector = Scratchpad.implode s pad := by
    obtain ⟨lines, rfl⟩ := pad
    rfl
  rw [concludeLines, himplode, conclude]

theorem hashPasses_of_run {k : Nat} {v : Variant} {blob : Bytes} {tweak : UInt64} {r : Loop}
    (htweak : tweakFor v (Keccak.hash blob) blob = .ok tweak)
    (hrun : run v tweak k (startLoop (Keccak.hash blob)) = .ok r) :
    hashPasses k v blob = .ok (concludeLines (Keccak.hash blob) r.pad) := by
  simp only [hashPasses, htweak, hrun, ok_bind, pure_eq_ok]

theorem hashPasses_v0 (k : Nat) (blob : Bytes) :
    let s := Keccak.hash blob
    let m : Mixer := ⟨Scratchpad.explode s freshPad, startA s, startB s⟩
    hashPasses k .v0 blob = .ok (conclude s (Nat.repeat Mixer.passV0 k m).pad) := by
  intro s m
  have hrun := run_of_pass (pass_v0 0 (startB1 s) (startMath s)) k m
  rw [hashPasses_of_run rfl hrun, Loop.ofMixer, concludeLines_toArray]

theorem hash_v0 (blob : Bytes) : hash .v0 blob = .ok (hashV0 blob) := hashPasses_v0 passCount blob

theorem hashPasses_v1 (k : Nat) (blob : Bytes) (h : variant1Min ≤ blob.size) :
    let s := Keccak.hash blob
    let m : Mixer := ⟨Scratchpad.explode s freshPad, startA s, startB s⟩
    hashPasses k .v1 blob
      = .ok (conclude s (Nat.repeat (Mixer.passV1 (tweakOf s blob h)) k m).pad) := by
  intro s m
  have htweak : tweakFor .v1 s blob = .ok (tweakOf s blob h) := by
    rw [tweakFor, if_pos rfl, wordAt, dif_pos h]
    rfl
  have hrun := run_of_pass (pass_v1 (tweakOf s blob h) (startB1 s) (startMath s)) k m
  rw [hashPasses_of_run htweak hrun, Loop.ofMixer, concludeLines_toArray]

theorem hash_v1 (blob : Bytes) (h : variant1Min ≤ blob.size) :
    hash .v1 blob = .ok (hashV1 blob h) := hashPasses_v1 passCount blob h

theorem hashPasses_v2 (k : Nat) (blob : Bytes) :
    let s := Keccak.hash blob
    let m : ShufflingMixer :=
      ⟨Scratchpad.explode s freshPad, startA s, startB s, startB1 s, startMath s⟩
    hashPasses k .v2 blob = .ok (conclude s (Nat.repeat ShufflingMixer.pass k m).pad) := by
  intro s m
  have hrun := run_of_pass (pass_v2 0) k m
  rw [hashPasses_of_run rfl hrun, Loop.ofShuffling, concludeLines_toArray]

theorem hash_v2 (blob : Bytes) : hash .v2 blob = .ok (hashV2 blob) := hashPasses_v2 passCount blob

theorem hash_v1_of_short {blob : Bytes} (h : blob.size < variant1Min) :
    hash .v1 blob = .error (.outsideBlob variant1Min) := by
  have htweak : tweakFor .v1 (Keccak.hash blob) blob = .error (.outsideBlob variant1Min) := by
    rw [tweakFor, if_pos rfl, wordAt, dif_neg (Nat.not_le_of_gt h)]
    rfl
  rw [hash, hashPasses, htweak]
  rfl

/-- With no check made beforehand the hash has the same digests, and a fault where there is none. -/
theorem hash_eq_ok_iff {v : Variant} {blob : Bytes} {d : Digest} :
    hash v blob = .ok d ↔ hashVariant v blob = .ok d := by
  cases v with
  | v0 => rw [hash_v0, hashVariant, Except.ok.injEq, Except.ok.injEq]
  | v1 =>
    by_cases h : variant1Min ≤ blob.size
    · rw [hash_v1 blob h, hashVariant, dif_pos h, Except.ok.injEq, Except.ok.injEq]
    · rw [hash_v1_of_short (Nat.lt_of_not_le h), hashVariant, dif_neg h]
      exact ⟨nofun, nofun⟩
  | v2 => rw [hash_v2, hashVariant, Except.ok.injEq, Except.ok.injEq]

end Checked

/-! ### Totality -/

/-- The plain hash is total on exactly what its checks accept.  It fails where the standard check
does, with that check's error, and under a given variant where the tweak has no room; the fast check
accepts nothing that the standard one does not hash under variant 1.  And the checks are all that is
needed: with every access and operation of it checked the hash has the same digests, and whatever
the registers hold, no pass faults on a pad with all its lines. -/
theorem hash_total_on_accepted :
    (∀ blob, (∃ r, hashStandard blob = .error r) ↔ ∃ e, checkStandard blob = .error e) ∧
    (∀ blob e, checkStandard blob = .error e → ∃ r, hashStandard blob = .error r ∧
      r.message = "standard path contract violated: " ++ e.message) ∧
    (∀ v blob, (∃ r, hashVariant v blob = .error r) ↔ v = .v1 ∧ blob.size < variant1Min) ∧
    (∀ blob, checkFast blob = .ok () →
      checkStandard blob = .ok () ∧ standardVariant blob = .ok .v1) ∧
    (∀ blob, standardVariant blob = .ok .v1 → tweakOffset + 8 ≤ blob.size) ∧
    (∀ v blob d, Checked.hash v blob = .ok d ↔ hashVariant v blob = .ok d) ∧
    (∀ v tweak k (s : Checked.Loop), s.pad.size = lineCount →
      ∃ r, Checked.run v tweak k s = .ok r ∧ r.pad.size = lineCount) ∧
    (∀ address, ∀ d < 4, Checked.place address ^^^ d < lineCount) ∧
    ∀ c root, IntegerStep.divisor c root ≠ 0 := by
  refine ⟨fun blob => ⟨?_, ?_⟩, fun blob e he => ?_, fun v blob => hashVariant_eq_error_iff,
    fun blob hfast => ?_, fun blob => size_of_standardVariant, fun v blob d =>
    Checked.hash_eq_ok_iff, Checked.run_total, fun address d hd => ?_, Checked.divisor_ne_zero⟩
  · rintro ⟨r, hr⟩
    obtain ⟨e, he, -⟩ := hashStandard_eq_error_iff.mp hr
    exact ⟨e, he⟩
  · rintro ⟨e, he⟩
    exact ⟨_, hashStandard_of_refused he⟩
  · exact ⟨_, hashStandard_of_refused he, rfl⟩
  · have hv := standardVariant_of_checkFast hfast
    exact ⟨checkStandard_eq_ok_iff.mpr ⟨_, hv⟩, hv⟩
  · exact (beside (lineIndex address) ⟨d, hd⟩).isLt

/-- A blob with one byte too few for its tweak, the shortest header of the fast path, and all passes
of variant 2 with registers that name the last lines of the pad. -/
theorem hash_total_on_accepted_edges :
    let short : Bytes := Array.replicate 42 7
    let header : Bytes := #[7] ++ Array.replicate 75 0
    let top : Line := ⟨0x1ffff0, 0xffffffffffffffff⟩
    let start : Checked.Loop := ⟨Array.replicate lineCount top, top, top, top, ⟨1, 1⟩⟩
    checkStandard short = .error (.tooShort 42 43) ∧
      (∃ r, hashStandard short = .error r ∧ r.message =
        "standard path contract violated: " ++ (BlobError.tooShort 42 43).message) ∧
      checkFast header = .ok () ∧ standardVariant header = .ok .v1 ∧ 43 ≤ header.size ∧
      start.pad.size = lineCount ∧
      ∃ r, Checked.run .v2 0 passCount start = .ok r ∧ r.pad.size = lineCount := by
  intro short header top start
  have hshort : checkStandard short = .error (.tooShort 42 43) := rfl
  have hheader : checkFast header = .ok () := rfl
  have hlines : start.pad.size = lineCount := Array.size_replicate
  obtain ⟨-, hrefused, -, hfast, htweak, -, hrun, -⟩ := hash_total_on_accepted
  obtain ⟨-, hv1⟩ := hfast header hheader
  exact ⟨hshort, hrefused short _ hshort, hheader, hv1, htweak header hv1, hlines,
    hrun .v2 0 passCount start hlines⟩

end ProofOfWork.Cryptonight

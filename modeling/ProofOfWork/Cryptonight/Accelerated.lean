import ProofOfWork.Aes.Encrypt
import ProofOfWork.Aes.KeyAssist
import ProofOfWork.Cryptonight.Mixing

/-!
# ProofOfWork.Cryptonight.Accelerated — variant 1 in registers

The phases of variant 1 as a processor with AES instructions runs them: keys from the key-generation
instruction, eight lines side by side through each round instruction, and a mixing loop on two words
whose next place is carried along.
-/

namespace ProofOfWork.Cryptonight.Accelerated

variable {n : Nat}

/-! ### Filling and folding -/

/-- A round on all eight lines for each key in turn. -/
def pseudoRounds (keys : Aes.RoundKeys) (t : Vector Line 8) : Vector Line 8 :=
  keys.foldl (fun t key => t.map fun x => Aes.encrypt x key) t

def fillKeys (s : Keccak.State) : Aes.RoundKeys := Aes.assistedKeys (s.line 0) (s.line 1)

def foldKeys (s : Keccak.State) : Aes.RoundKeys := Aes.assistedKeys (s.line 2) (s.line 3)

/-- Eight lines of the pad from line `8 * c` on. -/
def group (pad : Scratchpad n) (c : Nat) (h : c < n / 8) : Vector Line 8 :=
  Vector.ofFn fun i => pad[8 * c + i.val]

def setGroup (pad : Scratchpad n) (c : Nat) (h : c < n / 8) (t : Vector Line 8) : Scratchpad n :=
  Nat.fold 8 (fun i hi pad => pad.set (8 * c + i) t[i]) pad

def explode (s : Keccak.State) (pad : Scratchpad n) : Scratchpad n :=
  let keys := fillKeys s
  let fillGroup (c : Nat) (hc : c < n / 8) (p : Vector Line 8 × Scratchpad n) :=
    let t := pseudoRounds keys p.1
    (t, setGroup p.2 c hc t)
  (Nat.fold (n / 8) fillGroup (Scratchpad.text s, pad)).2

def implode (s : Keccak.State) (pad : Scratchpad n) : Keccak.State :=
  let keys := foldKeys s
  let foldGroup (c : Nat) (hc : c < n / 8) (t : Vector Line 8) :=
    pseudoRounds keys (Vector.zipWith (· ^^^ ·) t (group pad c hc))
  Scratchpad.withText s (Nat.fold (n / 8) foldGroup (Scratchpad.text s))

/-! ### Mixing -/

structure Registers where
  pad : Pad
  al : UInt64
  ah : UInt64
  b : Line
  /-- The address of the next line to read. -/
  next : UInt64

/-- Bits 28 and 29 flip by a table that bits 24, 28 and 29 index. -/
def flipHigh (v : UInt64) : UInt64 :=
  let x := (v >>> 24).toUInt8
  let i := ((x >>> 3) &&& 6 ||| x &&& 1) <<< 1
  v ^^^ ((0x7531 : UInt64) >>> i.toUInt64 &&& 3) <<< 28

def roundStep (r : Registers) : Registers :=
  let j := lineIndex r.next
  let c := Aes.encrypt r.pad[j] ⟨r.al, r.ah⟩
  let x := r.b ^^^ c
  ⟨r.pad.set j ⟨x.lo, flipHigh x.hi⟩, r.al, r.ah, c, c.lo⟩

def productStep (tweak : UInt64) (r : Registers) : Registers :=
  let j := lineIndex r.next
  let d := r.pad[j]
  let al := r.al + mulHigh r.next d.lo
  let ah := r.ah + r.next * d.lo
  ⟨r.pad.set j ⟨al, ah ^^^ tweak⟩, al ^^^ d.lo, ah ^^^ d.hi, r.b, al ^^^ d.lo⟩

def pass (tweak : UInt64) (r : Registers) : Registers := productStep tweak (roundStep r)

end ProofOfWork.Cryptonight.Accelerated

import ProofOfWork.Processor.Snapshot

/-!
# ProofOfWork.Processor.Detection — which features a processor has

A feature is there if the processor answers to the feature's leaf, the feature's bit is set, and the
registers it needs are saved.  Which leaves there are, leaf 0 and its extended counterpart say; what
is saved, the control register `XCR0` says, which can be read only where leaf 1 announces it.
-/

namespace ProofOfWork.Processor

structure Registers where
  eax : UInt32
  ebx : UInt32
  ecx : UInt32
  edx : UInt32
deriving DecidableEq, Repr

/-- What a processor answers when it is asked about itself. -/
structure Identification where
  cpuid : (leaf subleaf : UInt32) → Registers
  xcr0 : UInt64

def bitSet (r : UInt32) (n : Fin 32) : Bool := (r >>> n.val.toUInt32) &&& 1 != 0

namespace Identification

variable (p : Identification)

/-- The highest leaf there is. -/
def maxLeaf : UInt32 := (p.cpuid 0 0).eax

def maxExtendedLeaf : UInt32 := (p.cpuid 0x80000000 0).eax

def answers : Source → Bool
  | .leaf1Ecx | .leaf1Edx => true
  | .extendedEcx => 0x80000001 ≤ p.maxExtendedLeaf
  | .leaf7Ebx | .leaf7Ecx => 7 ≤ p.maxLeaf
  | .leaf13Eax => 13 ≤ p.maxLeaf

def read : Source → UInt32
  | .leaf1Ecx => (p.cpuid 1 0).ecx
  | .leaf1Edx => (p.cpuid 1 0).edx
  | .extendedEcx => (p.cpuid 0x80000001 0).ecx
  | .leaf7Ebx => (p.cpuid 7 0).ebx
  | .leaf7Ecx => (p.cpuid 7 0).ecx
  | .leaf13Eax => (p.cpuid 13 1).eax

/-- The control register, which reads zero where it cannot be read. -/
def control : UInt64 := if bitSet (p.read .leaf1Ecx) 27 then p.xcr0 else 0

def savesAvx : Bool := bitSet (p.read .leaf1Ecx) 28 && p.control &&& 0x6 == 0x6

def saves : SavedState → Bool
  | .none => true
  | .avx => p.savesAvx
  | .avx512 => p.savesAvx && p.control &&& 0xe0 == 0xe0

def shows (o : Origin) : Bool := p.answers o.source && bitSet (p.read o.source) o.bit && p.saves o.saved

end Identification

/-! ### Snapshots -/

/-- The features found on a processor. -/
structure Features where
  has : Feature → Bool

/-- A feature that was asked for and is not there. -/
structure MissingFeature where
  feature : Feature
deriving DecidableEq, Repr

def MissingFeature.message (e : MissingFeature) : String :=
  "CPU feature '" ++ e.feature.name ++
    "' is not available on this processor (or not enabled by the OS)"

/-- The features one after the other, in reporting order.  Below leaf 1 a processor tells nothing. -/
def Identification.snapshot (p : Identification) : Snapshot :=
  if 1 ≤ p.maxLeaf then
    Feature.all.foldl (fun s f => s.record f (p.shows f.origin)) .empty
  else .empty

def Identification.features (p : Identification) : Features := ⟨p.snapshot.has⟩

namespace Features

def ofList (l : List Feature) : Features := ⟨fun f => l.contains f⟩

/-- A name that no feature has is not there. -/
def hasNamed (f : Features) (name : String) : Bool := (Feature.ofName? name).any f.has

def enabled (f : Features) : List String := (Feature.all.filter f.has).map Feature.name

def isEmpty (f : Features) : Bool := Feature.all.all fun x => !f.has x

/-- The enabled names as a set is written. -/
def describe (f : Features) : String :=
  "\x7b" ++ String.intercalate ", " (f.enabled.map fun n => "\"" ++ n ++ "\"") ++ "\x7d"

/-- The first of the wanted features that is missing, if any. -/
def require (f : Features) (wanted : List Feature) : Except MissingFeature Unit :=
  match wanted.find? fun x => !f.has x with
  | some x => .error ⟨x⟩
  | none => .ok ()

end Features

/-- What the accelerated hash needs, in the order it asks. -/
def acceleratedNeeds : List Feature := [.sse2, .aes]

/-- The processor that is taken for granted where none can be asked. -/
def Features.baseline : Features :=
  .ofList [.cmov, .mmx, .sse, .sse2, .sse3, .ssse3, .sse41, .sse42, .pclmul, .cx16, .movbe, .popcnt,
    .aes, .avx, .fma, .f16c, .xsave, .lzcnt, .avx2, .bmi, .bmi2]

end ProofOfWork.Processor

import ProofOfWork.Index

/-!
# ProofOfWork.Processor.Feature — the processor features and where each is read

Each feature is one bit of one register, and some also ask that the operating system saves the vector
registers they work on.
-/

namespace ProofOfWork.Processor

inductive Feature
  | cmov | mmx | sse | sse2 | sse3 | ssse3 | sse41 | sse42 | pclmul | cx16 | movbe | popcnt | aes
  | rdrnd | avx | fma | f16c | xsave | lzcnt | sse4a | prfchw | xop | fma4 | tbm | mwaitx | avx2
  | fsgsbase | sgx | bmi | hle | bmi2 | invpcid | rtm | rdseed | adx | smap | pcommit | clflushopt
  | clwb | sha | avx512f | avx512dq | avx512ifma | avx512pf | avx512er | avx512cd | avx512bw
  | avx512vl | prefetchwt1 | avx512vbmi | pku | xsaveopt | xsavec | xsaves
deriving DecidableEq, Repr

/-- A register of the processor's identification, by the leaf it answers to. -/
inductive Source
  | leaf1Ecx | leaf1Edx | extendedEcx | leaf7Ebx | leaf7Ecx | leaf13Eax
deriving DecidableEq, Repr

/-- The registers that must be saved for a feature to be of use. -/
inductive SavedState
  | none | avx | avx512
deriving DecidableEq, Repr

structure Origin where
  source : Source
  bit : Fin 32
  saved : SavedState
deriving DecidableEq, Repr

namespace Feature

/-- In reporting order. -/
def all : List Feature :=
  [.cmov, .mmx, .sse, .sse2, .sse3, .ssse3, .sse41, .sse42, .pclmul, .cx16, .movbe, .popcnt,
   .aes, .rdrnd, .avx, .fma, .f16c, .xsave, .lzcnt, .sse4a, .prfchw, .xop, .fma4, .tbm, .mwaitx,
   .avx2, .fsgsbase, .sgx, .bmi, .hle, .bmi2, .invpcid, .rtm, .rdseed, .adx, .smap, .pcommit,
   .clflushopt, .clwb, .sha, .avx512f, .avx512dq, .avx512ifma, .avx512pf, .avx512er, .avx512cd,
   .avx512bw, .avx512vl, .prefetchwt1, .avx512vbmi, .pku, .xsaveopt, .xsavec, .xsaves]

def name : Feature → String
  | cmov => "cmov"
  | mmx => "mmx"
  | sse => "sse"
  | sse2 => "sse2"
  | sse3 => "sse3"
  | ssse3 => "ssse3"
  | sse41 => "sse4.1"
  | sse42 => "sse4.2"
  | pclmul => "pclmul"
  | cx16 => "cx16"
  | movbe => "movbe"
  | popcnt => "popcnt"
  | aes => "aes"
  | rdrnd => "rdrnd"
  | avx => "avx"
  | fma => "fma"
  | f16c => "f16c"
  | xsave => "xsave"
  | lzcnt => "lzcnt"
  | sse4a => "sse4a"
  | prfchw => "prfchw"
  | xop => "xop"
  | fma4 => "fma4"
  | tbm => "tbm"
  | mwaitx => "mwaitx"
  | avx2 => "avx2"
  | fsgsbase => "fsgsbase"
  | sgx => "sgx"
  | bmi => "bmi"
  | hle => "hle"
  | bmi2 => "bmi2"
  | invpcid => "invpcid"
  | rtm => "rtm"
  | rdseed => "rdseed"
  | adx => "adx"
  | smap => "smap"
  | pcommit => "pcommit"
  | clflushopt => "clflushopt"
  | clwb => "clwb"
  | sha => "sha"
  | avx512f => "avx512f"
  | avx512dq => "avx512dq"
  | avx512ifma => "avx512ifma"
  | avx512pf => "avx512pf"
  | avx512er => "avx512er"
  | avx512cd => "avx512cd"
  | avx512bw => "avx512bw"
  | avx512vl => "avx512vl"
  | prefetchwt1 => "prefetchwt1"
  | avx512vbmi => "avx512vbmi"
  | pku => "pku"
  | xsaveopt => "xsaveopt"
  | xsavec => "xsavec"
  | xsaves => "xsaves"

def ofName? (s : String) : Option Feature := all.find? fun f => f.name = s

/-- The place in reporting order. -/
def position (f : Feature) : Nat := all.idxOf f

def origin : Feature → Origin
  | cmov => ⟨.leaf1Edx, 15, .none⟩
  | mmx => ⟨.leaf1Edx, 23, .none⟩
  | sse => ⟨.leaf1Edx, 25, .none⟩
  | sse2 => ⟨.leaf1Edx, 26, .none⟩
  | sse3 => ⟨.leaf1Ecx, 0, .none⟩
  | ssse3 => ⟨.leaf1Ecx, 9, .none⟩
  | sse41 => ⟨.leaf1Ecx, 19, .none⟩
  | sse42 => ⟨.leaf1Ecx, 20, .none⟩
  | pclmul => ⟨.leaf1Ecx, 1, .none⟩
  | cx16 => ⟨.leaf1Ecx, 13, .none⟩
  | movbe => ⟨.leaf1Ecx, 22, .none⟩
  | popcnt => ⟨.leaf1Ecx, 23, .none⟩
  | aes => ⟨.leaf1Ecx, 25, .none⟩
  | rdrnd => ⟨.leaf1Ecx, 30, .none⟩
  | avx => ⟨.leaf1Ecx, 28, .avx⟩
  | fma => ⟨.leaf1Ecx, 12, .avx⟩
  | f16c => ⟨.leaf1Ecx, 29, .avx⟩
  | xsave => ⟨.leaf1Ecx, 26, .avx⟩
  | lzcnt => ⟨.extendedEcx, 5, .none⟩
  | sse4a => ⟨.extendedEcx, 6, .none⟩
  | prfchw => ⟨.extendedEcx, 8, .none⟩
  | xop => ⟨.extendedEcx, 11, .avx⟩
  | fma4 => ⟨.extendedEcx, 16, .avx⟩
  | tbm => ⟨.extendedEcx, 21, .none⟩
  | mwaitx => ⟨.extendedEcx, 29, .none⟩
  | avx2 => ⟨.leaf7Ebx, 5, .avx⟩
  | fsgsbase => ⟨.leaf7Ebx, 0, .none⟩
  | sgx => ⟨.leaf7Ebx, 2, .none⟩
  | bmi => ⟨.leaf7Ebx, 3, .none⟩
  | hle => ⟨.leaf7Ebx, 4, .none⟩
  | bmi2 => ⟨.leaf7Ebx, 8, .none⟩
  | invpcid => ⟨.leaf7Ebx, 10, .none⟩
  | rtm => ⟨.leaf7Ebx, 11, .none⟩
  | rdseed => ⟨.leaf7Ebx, 18, .none⟩
  | adx => ⟨.leaf7Ebx, 19, .none⟩
  | smap => ⟨.leaf7Ebx, 20, .none⟩
  | pcommit => ⟨.leaf7Ebx, 22, .none⟩
  | clflushopt => ⟨.leaf7Ebx, 23, .none⟩
  | clwb => ⟨.leaf7Ebx, 24, .none⟩
  | sha => ⟨.leaf7Ebx, 29, .none⟩
  | avx512f => ⟨.leaf7Ebx, 16, .avx512⟩
  | avx512dq => ⟨.leaf7Ebx, 17, .avx512⟩
  | avx512ifma => ⟨.leaf7Ebx, 21, .avx512⟩
  | avx512pf => ⟨.leaf7Ebx, 26, .avx512⟩
  | avx512er => ⟨.leaf7Ebx, 27, .avx512⟩
  | avx512cd => ⟨.leaf7Ebx, 28, .avx512⟩
  | avx512bw => ⟨.leaf7Ebx, 30, .avx512⟩
  | avx512vl => ⟨.leaf7Ebx, 31, .avx512⟩
  | prefetchwt1 => ⟨.leaf7Ecx, 0, .none⟩
  | avx512vbmi => ⟨.leaf7Ecx, 1, .avx512⟩
  | pku => ⟨.leaf7Ecx, 4, .none⟩
  | xsaveopt => ⟨.leaf13Eax, 0, .avx⟩
  | xsavec => ⟨.leaf13Eax, 1, .avx⟩
  | xsaves => ⟨.leaf13Eax, 3, .avx⟩

end Feature

end ProofOfWork.Processor

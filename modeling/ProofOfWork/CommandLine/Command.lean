import ProofOfWork.CommandLine.Reader

/-!
# ProofOfWork.CommandLine.Command — the commands and how they are asked for
-/

namespace ProofOfWork.CommandLine

open Cryptonight

inductive Verb
  | features
  | sha256
  | cryptonight
  | search
deriving DecidableEq, Repr

namespace Verb

def all : List Verb := [features, sha256, cryptonight, search]

def name : Verb → String
  | features => "features"
  | sha256 => "sha256"
  | cryptonight => "cryptonight"
  | search => "search"

def ofName? (s : String) : Option Verb := all.find? fun v => v.name = s

def grammar : Verb → Grammar
  | features => ⟨[.help, .verbose, .all], some 0⟩
  | sha256 => ⟨[.help, .verbose, .hex, .backend], none⟩
  | cryptonight => ⟨[.help, .verbose, .variant, .fast], some 1⟩
  | search => ⟨[.help, .verbose, .difficulty, .start, .count, .threads, .fast], some 1⟩

end Verb

/-- By which rules a blob is hashed. -/
inductive BlobRules
  /-- Those that the blob selects. -/
  | own
  | variant (v : Variant)
  | fast
deriving DecidableEq, Repr

/-- What a nonce search is asked for. -/
structure SearchJob where
  blob : String
  difficulty : UInt64
  start : UInt32
  count : UInt32
  threads : Nat
  fast : Bool
deriving DecidableEq, Repr

inductive Command
  | features (all : Bool)
  /-- Messages in text or in hexadecimal; without a kind, on the best one. -/
  | sha256 (messages : List String) (hex : Bool) (backend : Option Kind)
  | cryptonight (blob : String) (rules : BlobRules)
  | search (job : SearchJob)
deriving DecidableEq, Repr

/-- A command, and whether it tells on the way how it is done. -/
structure Request where
  verbose : Bool
  command : Command
deriving DecidableEq, Repr

/-- What the settings ask of a command. -/
def Verb.command (s : Settings) : Verb → Except Misuse Command
  | .features => .ok (.features s.all)
  | .sha256 =>
    if s.operands = [] then .error (.noOperand "<MESSAGE>...")
    else .ok (.sha256 s.operands s.hex s.backend)
  | .cryptonight =>
    match s.operands.head?, s.variant, s.fast with
    | none, _, _ => .error (.noOperand "<BLOB>")
    | _, some _, true => .error (.conflict .fast .variant)
    | some blob, some v, false => .ok (.cryptonight blob (.variant v))
    | some blob, none, true => .ok (.cryptonight blob .fast)
    | some blob, none, false => .ok (.cryptonight blob .own)
  | .search =>
    match s.operands.head? with
    | none => .error (.noOperand "<BLOB>")
    | some blob =>
      .ok (.search ⟨blob, s.difficulty, s.start, s.count, s.threads.toNat, s.fast⟩)

/-! ### Whole command lines -/

/-- Help can be asked for the whole program, for a command, and for help. -/
def readHelp : List String → Stop
  | [] => .help
  | word :: rest =>
    match Verb.ofName? word, rest with
    | some _, [] => .help
    | some _, extra :: _ => .misuse (.unexpected extra)
    | none, [] => if word = "help" then .help else .misuse (.unexpected word)
    | none, extra :: _ => .misuse (.unexpected (if word = "help" then extra else word))

def readVerb (verbose : Bool) (word : String) (rest : List String) : Except Stop Request :=
  match Verb.ofName? word with
  | none => if word = "help" then .error (readHelp rest) else misuse (.unexpected word)
  | some v => do
    let s ← readWords v.grammar rest
    let command ← (v.command s).mapError .misuse
    return ⟨verbose || s.verbose, command⟩

/-- What can stand before the command. -/
def outerGrammar : Grammar := ⟨[.help, .version, .verbose], some 0⟩

def readRequest (s : Settings) : List String → Except Stop Request
  | [] => misuse .noCommand
  | word :: rest =>
    if word = "--" then misuse .noCommand
    else if isOption word then do
      let r ← Reader.step outerGrammar { settings := s } word
      readRequest r.settings rest
    else readVerb s.verbose word rest

def request (words : List String) : Except Stop Request := readRequest {} words

end ProofOfWork.CommandLine

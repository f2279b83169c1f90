import ProofOfWork.CommandLine.Numeral
import ProofOfWork.Cryptonight.Variant
import ProofOfWork.Dispatch

/-!
# ProofOfWork.CommandLine.Settings — the options and what they set
-/

namespace ProofOfWork.CommandLine

/-- The options that a word of the command line can name. -/
inductive Switch
  | help
  | version
  | verbose
  | all
  | hex
  | fast
  | backend
  | variant
  | difficulty
  | start
  | count
  | threads
deriving DecidableEq, Repr

namespace Switch

/-- The name after two dashes. -/
def long : Switch → String
  | help => "help"
  | version => "version"
  | verbose => "verbose"
  | all => "all"
  | hex => "hex"
  | fast => "fast"
  | backend => "backend"
  | variant => "variant"
  | difficulty => "difficulty"
  | start => "start"
  | count => "count"
  | threads => "threads"

/-- The letter after one dash. -/
def short? : Switch → Option Char
  | help => some 'h'
  | version => some 'V'
  | verbose => some 'v'
  | all => some 'a'
  | backend => some 'b'
  | difficulty => some 'd'
  | count => some 'c'
  | threads => some 't'
  | _ => none

def takesValue : Switch → Bool
  | backend | variant | difficulty | start | count | threads => true
  | _ => false

end Switch

/-- What a command line has set so far. -/
structure Settings where
  given : List Switch := []
  operands : List String := []
  verbose : Bool := false
  all : Bool := false
  hex : Bool := false
  fast : Bool := false
  /-- Without a kind, the best one. -/
  backend : Option Kind := none
  /-- Without a variant, the one that the blob selects. -/
  variant : Option Cryptonight.Variant := none
  difficulty : UInt64 := 1
  start : UInt32 := 0
  count : UInt32 := 64
  threads : UInt64 := 0
deriving Repr

/-- Why a command line is not understood. -/
inductive Misuse
  | unexpected (word : String)
  | repeated (switch : Switch)
  | noValue (switch : Switch)
  | needlessValue (switch : Switch)
  | badValue (switch : Switch) (value : String)
  | conflict (first second : Switch)
  | noOperand (name : String)
  | noCommand
deriving DecidableEq, Repr

def Misuse.message : Misuse → String
  | unexpected word => "unexpected argument '" ++ word ++ "'"
  | repeated s => "the option --" ++ s.long ++ " is given more than once"
  | noValue s => "the option --" ++ s.long ++ " needs a value"
  | needlessValue s => "the option --" ++ s.long ++ " takes no value"
  | badValue s value => "invalid value '" ++ value ++ "' for the option --" ++ s.long
  | conflict s t => "the options --" ++ s.long ++ " and --" ++ t.long ++ " exclude each other"
  | noOperand name => "the argument " ++ name ++ " is missing"
  | noCommand => "a command is missing"

/-- Why reading a command line ends before its last word. -/
inductive Stop
  | help
  | version
  | misuse (cause : Misuse)
deriving DecidableEq, Repr

/-! ### Values -/

def backendChoice? (value : String) : Option (Option Kind) :=
  if value = "auto" then some none else (Kind.ofName? value).map some

def variantChoice? (value : String) : Option Cryptonight.Variant :=
  [Cryptonight.Variant.v0, .v1, .v2].find? fun v => toString v.number = value

namespace Settings

/-- The settings under an option's value, if it is one. -/
def withValue? (s : Settings) (value : String) : Switch → Option Settings
  | .backend => (backendChoice? value).map fun k => { s with backend := k }
  | .variant => (variantChoice? value).map fun v => { s with variant := some v }
  | .difficulty => (word64? value).map fun d => { s with difficulty := d }
  | .start => (word32? value).map fun n => { s with start := n }
  | .count => (word32? value).map fun n => { s with count := n }
  | .threads => (word64? value).map fun n => { s with threads := n }
  | _ => none

/-- The settings under an option that stands for itself. -/
def withFlag (s : Settings) : Switch → Except Stop Settings
  | .help => .error .help
  | .version => .error .version
  | .verbose => .ok { s with verbose := true }
  | .all => .ok { s with all := true }
  | .hex => .ok { s with hex := true }
  | .fast => .ok { s with fast := true }
  | x => .error (.misuse (.noValue x))

/-- An option is given at most once. -/
def register (s : Settings) (x : Switch) : Except Stop Settings :=
  if x ∈ s.given then .error (.misuse (.repeated x)) else .ok { s with given := x :: s.given }

def mark (s : Settings) (x : Switch) : Except Stop Settings := do (← s.register x).withFlag x

def assign (s : Settings) (x : Switch) (value : String) : Except Stop Settings := do
  let s ← s.register x
  match s.withValue? value x with
  | some s => return s
  | none => .error (.misuse (.badValue x value))

end Settings

end ProofOfWork.CommandLine

import ProofOfWork.CommandLine.Settings

/-!
# ProofOfWork.CommandLine.Reader — reading words into settings

A word of one dash holds letters: flags first, and an option that takes a value takes what is left of
the word, or the next word.  A word of two dashes holds a name, with the value after an equals sign
or in the next word.  Two dashes alone make all that follows operands.  The next word is no value if
it could be an option itself.  Words are taken in order, and the first fault ends the reading.
-/

namespace ProofOfWork.CommandLine

/-- What can stand at one level of a command line. -/
structure Grammar where
  switches : List Switch
  /-- The most operands; without a bound, any number. -/
  operandMax : Option Nat

namespace Grammar

def long? (g : Grammar) (name : String) : Option Switch := g.switches.find? fun x => x.long = name

def short? (g : Grammar) (c : Char) : Option Switch := g.switches.find? fun x => x.short? = some c

end Grammar

structure Reader where
  settings : Settings := {}
  /-- An option whose value is the next word. -/
  pending : Option Switch := none
  /-- Whether all words are operands from here on. -/
  literal : Bool := false

def misuse {α : Type} (cause : Misuse) : Except Stop α := .error (.misuse cause)

def isOption (word : String) : Bool :=
  match word.toList with
  | '-' :: _ :: _ => true
  | _ => false

/-- The letters after one dash. -/
def readLetters (g : Grammar) (word : String) (s : Settings) : List Char → Except Stop Reader
  | [] => .ok { settings := s }
  | c :: rest =>
    match g.short? c with
    | none => misuse (.unexpected word)
    | some x =>
      if x.takesValue then
        match rest with
        | [] => .ok { settings := s, pending := some x }
        | '=' :: value => do return { settings := ← s.assign x (String.ofList value) }
        | value => do return { settings := ← s.assign x (String.ofList value) }
      else do readLetters g word (← s.mark x) rest

/-- The name after two dashes, with its value if there is one. -/
def readName (g : Grammar) (word : String) (s : Settings) (cs : List Char) : Except Stop Reader :=
  match g.long? (String.ofList (cs.takeWhile (· != '='))), cs.dropWhile (· != '=') with
  | none, _ => misuse (.unexpected word)
  | some x, [] =>
    if x.takesValue then .ok { settings := s, pending := some x }
    else do return { settings := ← s.mark x }
  | some x, _ :: value =>
    if x.takesValue then do return { settings := ← s.assign x (String.ofList value) }
    else misuse (.needlessValue x)

namespace Reader

def operand (g : Grammar) (r : Reader) (word : String) : Except Stop Reader :=
  if g.operandMax.all fun n => r.settings.operands.length < n then
    .ok { r with settings := { r.settings with operands := r.settings.operands ++ [word] } }
  else misuse (.unexpected word)

def step (g : Grammar) (r : Reader) (word : String) : Except Stop Reader :=
  match r.pending with
  | some x =>
    if isOption word then misuse (.noValue x)
    else do return { settings := ← r.settings.assign x word }
  | none =>
    if r.literal then r.operand g word
    else
      match word.toList with
      | ['-', '-'] => .ok { r with literal := true }
      | '-' :: '-' :: name => readName g word r.settings name
      | '-' :: c :: cs => readLetters g word r.settings (c :: cs)
      | _ => r.operand g word

def finish (r : Reader) : Except Stop Settings :=
  match r.pending with
  | some x => misuse (.noValue x)
  | none => .ok r.settings

end Reader

def readWords (g : Grammar) (words : List String) : Except Stop Settings := do
  (← words.foldlM (Reader.step g) {}).finish

end ProofOfWork.CommandLine

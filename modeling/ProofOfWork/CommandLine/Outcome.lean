import ProofOfWork.CommandLine.Run

/-!
# ProofOfWork.CommandLine.Outcome — a whole run of the program
-/

namespace ProofOfWork.CommandLine

open Processor

/-- What a run leaves behind. -/
structure Outcome where
  exit : Nat
  output : String := ""
  /-- Why the run failed. -/
  report : String := ""
  /-- How the work was done, for those who asked. -/
  notes : List String := []
deriving DecidableEq, Repr

def programVersion : String := "powcore 0.1.0"

def usage : List String :=
  ["Multiway SHA-256 and CryptoNight proof-of-work hashing",
    "",
    "Usage: powcore [-v] <COMMAND>",
    "",
    "Commands:",
    "  features     List detected CPU features and the selected lane backend",
    "                 [-a|--all]",
    "  sha256       SHA-256 of short messages, batched across lanes",
    "                 [--hex] [-b|--backend auto|scalar|swar2|soft16|sse2|avx2] <MESSAGE>...",
    "  cryptonight  CryptoNight of a hex-encoded block header blob",
    "                 [--variant 0|1|2 | --fast] <BLOB>",
    "  search       Scan nonces of a header blob for a hash meeting a difficulty",
    "                 [-d|--difficulty N] [--start N] [-c|--count N] [-t|--threads N] [--fast] <BLOB>",
    "  help         Print this message",
    "",
    "Options:",
    "  -v, --verbose  Tell how the work is done",
    "  -h, --help     Print help",
    "  -V, --version  Print version"]

def unlines (lines : List String) : String := String.join (lines.map (· ++ "\n"))

def Stop.outcome : Stop → Outcome
  | help => { exit := 0, output := unlines usage }
  | version => { exit := 0, output := unlines [programVersion] }
  | misuse cause => { exit := 2, report := unlines ["error: " ++ cause.message] }

/-- A command line that is not understood ends with 2, a command without a result with 1. -/
def run (f : Features) (words : List String) : Outcome :=
  match request words with
  | .error stop => stop.outcome
  | .ok r =>
    let notes := if r.verbose then r.command.notes f else []
    match r.command.lines f with
    | .ok lines => { exit := 0, output := unlines lines, notes }
    | .error e => { exit := 1, report := e.report, notes }

end ProofOfWork.CommandLine

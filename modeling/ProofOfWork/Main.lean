import ProofOfWork.CommandLine.Outcome

/-!
# ProofOfWork.Main — the program
-/

open ProofOfWork

def main (words : List String) : IO UInt32 := do
  let o := CommandLine.run Processor.Features.baseline words
  IO.print o.output
  o.notes.forM IO.eprintln
  IO.eprint o.report
  return o.exit.toUInt32

import SplitRadix.CommandLine.Report

/-!
# The command line

Carries out the report of a run. Exit codes: 0 for success, 1 for an error, 2 for a command line that
cannot be read.
-/

open SplitRadix.CommandLine

def usage : String :=
  "Usage: --size N [--leaf L] [--inverse] [--dump none|tree|hex|asm] [--output FILE] " ++
  "[--symbol NAME] [--stats]"

/-- Print why a run stopped. -/
def complain (message : String) (code : UInt32) : IO UInt32 := do
  IO.eprintln s!"Error: {message}"
  return code

def carryOut (r : Report) : IO UInt32 := do
  IO.print r.text
  match r.ending with
  | .done text =>
    IO.print text
    return 0
  | .stopped cause => complain cause.message (UInt32.ofNat cause.exitCode)
  | .writes path object text =>
    try
      IO.FS.writeBinFile path (ByteArray.mk object.toArray)
    catch e =>
      return ← complain (toString e) 1
    IO.print text
    return 0

def main (args : List String) : IO UInt32 := do
  match Options.parse? args with
  | none =>
    IO.eprintln usage
    return 2
  | some options => carryOut options.run

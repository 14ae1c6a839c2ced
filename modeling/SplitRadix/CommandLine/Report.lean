import SplitRadix.CommandLine.Options
import SplitRadix.Machine.Glue
import SplitRadix.ObjectFile.Elf
import SplitRadix.Routine.Generator
import SplitRadix.Routine.Listing

/-!
# What a command line comes to

A command line generates one routine for x86-64 and prints or exports it. The report of a run says
what is printed, which file is written, and how it ends; carrying it out is left to the caller.
-/

namespace SplitRadix.CommandLine

open Transform

/-- The reason a run stops early. -/
inductive Stop where
  | parameters (cause : ParameterError)
  | generation (cause : GenerateError)
  | objectFile (cause : ObjectFile.ExportError)
  | fault (cause : Fault)
  deriving DecidableEq, Repr

def Stop.message : Stop → String
  | parameters cause => cause.message
  | generation cause => cause.message
  | objectFile cause => cause.message
  | fault cause => cause.message

/-- The exit code of a run that stops early. -/
def Stop.exitCode : Stop → Nat
  | fault _ => 101
  | _ => 1

/-- How a run goes on after its first text. -/
inductive Ending where
  | done (text : String)
  | stopped (cause : Stop)
  | writes (path : String) (object : Bytes) (text : String)    -- the text once the file is written
  deriving DecidableEq, Repr

/-- A run: the text printed at first, and what follows. -/
structure Report where
  text : String
  ending : Ending
  deriving DecidableEq, Repr

/-- The address the routine is generated for. -/
def regionBase : Nat := 0x400000

def Options.direction (o : Options) : Direction := if o.inverse then .inverse else .forward

/-- A failure as the reason to stop. -/
def stopBy {ε : Type} (kind : ε → Stop) : Failure ε → Stop
  | .error cause => kind cause
  | .fault cause => .fault cause

/-- The outcome of a generation. -/
structure Generated where
  routine : Routine
  region : Region
  statistics : Scratch.Statistics

/-- Generate the routine. -/
def generate (o : Options) : Except Stop Generated := do
  let (generator, _) ← (Generator.make Machine.backend () (.start none)).mapError
    (stopBy .generation)
  let params ← (Parameters.make o.size o.leaf).mapError (stopBy .parameters)
  let capacity ← (generator.requiredCapacity o.size o.leaf).mapError .fault
  let plan ← (Plan.make params regionBase capacity).mapError .fault
  let (result, g) := (Generator.generate ⟨o.size, o.leaf, o.direction⟩).result
    { generator, plan }
  let routine ← result.mapError (stopBy .generation)
  return { routine, region := g.plan.region, statistics := g.generator.session.statistics }

/-- One node of a decomposition. -/
def nodeLine (node : Node) : String :=
  Text.padStart 8 ' ' (toString node.size) ++ s!" @ {node.offset}\n"

/-- What is printed of the routine. -/
def dumpText (o : Options) (g : Generated) : Except Fault String := do
  let base := g.routine.entryAddress - g.routine.entryOffset
  match o.dump with
  | .none => return ""
  | .tree => return String.join ((← Decomposition.elaborate o.size o.leaf).map nodeLine)
  | .hex => Routine.hexDump (← g.routine.code g.region.bytes) base
  | .asm => g.routine.listing g.region.bytes base

/-- The sign mask, one lane a line. -/
def maskText (mask : List UInt32) : String :=
  "sign mask [\n" ++
  String.join (mask.map fun lane =>
    "    0x" ++ Text.padStart 8 '0' (Text.hex lane.toNat) ++ ",\n") ++
  "]\n"

/-- What is printed last. -/
def statsText (o : Options) (g : Generated) : String :=
  if o.stats then g.statistics.report else ""

/-- The end of a run whose routine was generated and dumped. -/
def finish (o : Options) (g : Generated) : Ending :=
  match o.output with
  | none => .done (statsText o g)
  | some path =>
    match ObjectFile.write g.region.bytes g.routine o.symbol with
    | .error e => .stopped (stopBy .objectFile e)
    | .ok object => .writes path object
        (s!"wrote {path} ({g.routine.length} bytes of code)\n" ++ maskText g.routine.signMask ++
          statsText o g)

/-- The report of a run. Mirrors `run`. -/
def Options.run (o : Options) : Report :=
  match generate o with
  | .error cause => { text := "", ending := .stopped cause }
  | .ok g =>
    match dumpText o g with
    | .error x => { text := "", ending := .stopped (.fault x) }
    | .ok text => { text, ending := finish o g }

end SplitRadix.CommandLine

import SplitRadix.Word

/-!
# Session statistics

Counts over all generations of a session. Every counter is a 64-bit word; a counter that would
overflow stops the update, with the counters before it already changed.
-/

namespace SplitRadix.Scratch

/-- Mirrors `SessionStats`. -/
structure Statistics where
  routines : Nat := 0          -- routines generated
  failures : Nat := 0          -- generations that reported an error
  codeSize : Nat := 0          -- bytes of all routines
  callSites : Nat := 0
  updates : Nat := 0           -- register updates written between calls
  elided : Nat := 0            -- updates left out because nothing changed
  largestRoutine : Nat := 0    -- bytes of the largest routine
  largestTransform : Nat := 0  -- transform size of the largest routine
  deriving DecidableEq, Repr

namespace Statistics

/-- Count a routine of `length` bytes for a transform of `size`. The first of several largest
routines is kept. Mirrors `GenerationSession.record_routine`. -/
def recordRoutine (size length : Nat) : Action Statistics Fault Unit := do
  let routines ← Word.add (← get).routines 1
  modify ({ · with routines })
  let codeSize ← Word.add (← get).codeSize length
  modify fun s =>
    if s.largestRoutine < length then
      { s with codeSize, largestRoutine := length, largestTransform := size }
    else
      { s with codeSize }

/-- Count the calls and register updates of a routine. Mirrors
`GenerationSession.record_call_chain`. -/
def recordChain (callSites updates elided : Nat) : Action Statistics Fault Unit := do
  let callSites ← Word.add (← get).callSites callSites
  modify ({ · with callSites })
  let updates ← Word.add (← get).updates updates
  modify ({ · with updates })
  let elided ← Word.add (← get).elided elided
  modify ({ · with elided })

/-- Count a generation that reported an error. Mirrors `GenerationSession.record_failure`. -/
def recordFailure : Action Statistics Fault Unit := do
  let failures ← Word.add (← get).failures 1
  modify ({ · with failures })

/-- The report, one counter a line. The largest routine is named once there is one. -/
def report (s : Statistics) : String :=
  "Generation Session Statistics:\n" ++
  s!"  Routines generated: {s.routines}\n" ++
  s!"  Failures: {s.failures}\n" ++
  s!"  Total code size: {s.codeSize} bytes\n" ++
  s!"  Call sites: {s.callSites}\n" ++
  s!"  Register updates: {s.updates}\n" ++
  s!"  Updates elided: {s.elided}\n" ++
  if 0 < s.largestRoutine then
    s!"  Largest routine: N={s.largestTransform} ({s.largestRoutine} bytes)\n"
  else ""

end Statistics

end SplitRadix.Scratch

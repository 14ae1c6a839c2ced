import SplitRadix.Code.Region
import SplitRadix.Transform.Direction
import SplitRadix.Word

/-!
# Routines

A routine is described by where its parts lie in the region it was written to; it does not hold its
code.
-/

namespace SplitRadix

/-- A contiguous piece of a routine. -/
structure Fragment where
  name : String
  offset : Nat
  length : Nat
  deriving DecidableEq, Repr

structure Routine where
  size : Nat                  -- of the transform
  direction : Direction
  entryOffset : Nat           -- first instruction of the prologue
  entryAddress : Nat
  length : Nat                -- bytes written, padding included
  x4Offset : Nat
  x8Offset : Nat
  callSites : Nat
  signMask : List UInt32      -- four lanes, handed to the routine when it runs
  fragments : List Fragment   -- in the order written
  deriving DecidableEq, Repr

namespace Routine

/-- The most fragments a routine has: two base cases, prologue, leaf start, four leaf passes, bridge
and epilogue. -/
def maxFragments : Nat := 10

/-- The first fragment of a name. Mirrors `Routine.fragment`. -/
def fragment? (r : Routine) (name : String) : Option Fragment :=
  r.fragments.find? fun f => f.name == name

/-- The routine's bytes, given the region it was written to. Mirrors `Routine.code`. -/
def code (r : Routine) (region : Bytes) : Except Fault Bytes :=
  if r.length ≤ region.length then .ok (region.take r.length)
  else .error (.rangeEnd r.length region.length)

end Routine

end SplitRadix

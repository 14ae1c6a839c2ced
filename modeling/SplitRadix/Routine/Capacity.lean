import SplitRadix.Decomposition.Basic
import SplitRadix.Target.Backend

/-!
# How long a routine can get

A bound on the length of a routine that depends neither on its iteration counts nor on where it is
put: every kernel once (the even-even pass twice), every alignment at its worst, every primitive at
its longest.
-/

namespace SplitRadix.Routine

open Target Kernel

/-- The sum of some lengths. -/
def total (lengths : List Nat) : Except Fault Nat :=
  match lengths with
  | [] => .ok 0
  | first :: rest => rest.foldlM Word.add first

/-- The most bytes the leaf passes take together. -/
def leafBound (lib : Library) : Except Fault Nat := do
  let evens ← Word.mul 2 (lib.leaf .evenEven).length
  total [evens, (lib.leaf .oddOdd).length,
    max (lib.leaf .evenOdd).length (lib.leaf .oddEven).length]

/-- The most bytes a routine takes for a transform of `size`. Two base cases, the entry and up to
four leaf loops are aligned; the loop bound is loaded up to three times; a node has up to three
register updates and a call. Mirrors `capacity_bound`. -/
def capacityBound {σ : Type} (backend : Backend σ) (size leaf : Nat) : Except Fault Nat := do
  let lib := backend.kernels
  let pad ← Word.sub backend.fetchAlignment 1
  let passes ← leafBound lib
  let fixed ← total [lib.x4.length, lib.x8.length, lib.leafInit.length, lib.bridge.length,
    backend.prologueLength, backend.epilogueLength]
  let alignment ← Word.mul 7 pad
  let counters ← Word.mul 3 backend.maxPrimitive
  let perNode ← Word.mul 4 backend.maxPrimitive
  let chain ← Word.mul perNode (← Decomposition.countWord size leaf)
  total [fixed, passes, alignment, counters, chain]

end SplitRadix.Routine

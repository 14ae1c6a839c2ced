import SplitRadix.Decomposition.Fill
import SplitRadix.Scratch.Arena
import SplitRadix.Scratch.Statistics

/-!
# Generation sessions

A session is the scratch arena of a generator together with its statistics. The arena holds the node
list of one generation at a time; the statistics stay.
-/

namespace SplitRadix.Scratch

inductive ScratchError where
  | allocationFailed (nodes bytes : Nat)
  deriving DecidableEq, Repr

def ScratchError.message : ScratchError → String
  | allocationFailed nodes bytes => s!"Scratch allocation of {nodes} nodes ({bytes} bytes) failed"

/-- Mirrors `GenerationSession`. -/
structure Session where
  arena : Arena
  statistics : Statistics := {}
  deriving DecidableEq, Repr

namespace Session

/-- A session whose arena holds at most `limit` bytes, or any number. Mirrors
`GenerationSession.with_memory_limit`. -/
def start (limit : Option Nat) : Session := { arena := { limit } }

/-- The size of a node in bytes. -/
def nodeSize : Nat := 16

/-- The largest request, in bytes. -/
def maxRequest : Nat := 2 ^ 63 - 1

/-- The bytes held by the arena. Mirrors `GenerationSession.memory_used`. -/
def memoryUsed (s : Session) : Nat := s.arena.used

/-- Take room for `count` nodes from the arena. The number of bytes in the error saturates. -/
def reserve (count : Nat) : Action Session (Failure ScratchError) Unit := fun s =>
  let bytes := nodeSize * count
  let refused := (.error (.error (.allocationFailed count (min bytes (2 ^ 64 - 1)))), s)
  if maxRequest < bytes then refused
  else
    match s.arena.allocate bytes with
    | none => refused
    | some arena => (.ok (), { s with arena })

/-- A table of `count` blank nodes. Mirrors `GenerationSession.alloc_nodes`. -/
def allocate (count : Nat) : Action Session (Failure ScratchError) (Array Node) := do
  reserve count
  return Array.replicate count Node.sentinel

/-- The nodes for size `n`, followed by the sentinel. Mirrors `Decomposition.build`, which also
asserts that as many nodes were written as counted and then stores the sentinel in the last slot.
Neither can make a difference: `fill` writes as many nodes as `countWord` counts, so the last slot is
the one it leaves, and that is blank from the start (`fill_blank`, `decompose_ensures`). -/
def decompose (n leaf : Nat) : Action Session (Failure ScratchError) (Array Node) := do
  let internal ← Decomposition.countWord n leaf
  let total ← Word.add internal 1
  let slots ← allocate total
  let (written, filled) := (Decomposition.fill leaf n 0).result ⟨slots, 0⟩
  let _ ← written
  return filled.slots

/-- Give all scratch memory back. Mirrors `GenerationSession.reset`. -/
def reset (s : Session) : Session := { s with arena := s.arena.reset }

/-- Update the statistics. -/
def record (update : Action Statistics Fault Unit) : Action Session Fault Unit := fun s =>
  let (result, statistics) := update.result s.statistics
  (result, { s with statistics })

end Session

end SplitRadix.Scratch

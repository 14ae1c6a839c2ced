import SplitRadix.Transform.Size

/-!
# Transform parameters

What a generator has to know about one transform: its size and leaf size, the iteration counts of
its leaf passes, and where each level of its twiddle table starts. `Parameters.make` computes the
reference values; `Parameters.withTables` takes them from elsewhere. Both accept exactly the sizes
that `isSupported` accepts.
-/

namespace SplitRadix.Transform

inductive ParameterError where
  | invalidSize (size leaf : Nat)
  | tableTooShort (required available : Nat)
  deriving DecidableEq, Repr

def ParameterError.message : ParameterError → String
  | invalidSize size leaf => s!"Unsupported transform size {size} for leaf size {leaf}"
  | tableTooShort required available =>
    s!"Lookup table has {available} entries, {required} required"

/-- Mirrors `TransformParameters`. -/
structure Parameters where
  size : Nat
  leaf : Nat
  iterations : IterationCounts
  table : List Nat    -- start of every level in the twiddle table, in complex elements
  deriving DecidableEq, Repr

/-- The number of twiddles of a level: nodes of size 2 * leaf * 2^level use a quarter of their size
on the first level and three quarters of it on the later ones. -/
def levelWidth (leaf level : Nat) : Nat :=
  let n := 2 * leaf * 2 ^ level
  if level = 0 then n / 4 else 3 * n / 4

/-- Where a level starts: after all the twiddles of the lower levels. -/
def levelStart (leaf : Nat) : Nat → Nat
  | 0 => 0
  | level + 1 => levelStart leaf level + levelWidth leaf level

/-- The starts of the first `n` levels. Mirrors `reference_lut_table`. -/
def referenceTable (leaf n : Nat) : List Nat := (List.range n).map (levelStart leaf)

namespace Parameters

/-- Parameters with given iteration counts and table. The table's length is not looked at here.
Mirrors `TransformParameters.with_tables`. -/
def withTables (size leaf : Nat) (iterations : IterationCounts) (table : List Nat) :
    Except (Failure ParameterError) Parameters := do
  let supported ← isSupported size leaf
  if supported then
    return { size, leaf, iterations, table }
  else
    throw (.error (.invalidSize size leaf))

/-- The reference parameters of a transform. Mirrors `TransformParameters.new`. -/
def make (size leaf : Nat) : Except (Failure ParameterError) Parameters := do
  let supported ← isSupported size leaf
  if supported then
    let iterations ← IterationCounts.forSize size leaf
    let n ← levels size leaf
    return { size, leaf, iterations, table := referenceTable leaf n }
  else
    throw (.error (.invalidSize size leaf))

/-- Whether the table covers every level of the transform. Mirrors
`TransformParameters.check_lut`. -/
def checkTable (p : Parameters) : Except (Failure ParameterError) Unit := do
  let required ← levels p.size p.leaf
  if p.table.length < required then
    throw (.error (.tableTooShort required p.table.length))

/-- The byte displacement in the twiddle table for a subtransform of size `n`: eight times the start
of its level, if it lies above a leaf and the table reaches that far. Mirrors
`TransformParameters.lut_displacement`. -/
def displacement (p : Parameters) (n : Nat) : Except Fault (Option Nat) := do
  match ← levels n p.leaf with
  | 0 => return none
  | level + 1 =>
    match p.table[level]? with
    | none => return none
    | some start => return some (← Word.mul 8 start)

end Parameters

end SplitRadix.Transform

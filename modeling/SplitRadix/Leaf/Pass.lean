/-!
# Leaf passes

A leaf pass transforms blocks of two leaves. It is named by the parity of its input and output
halves. The passes of equal parity loop; the mixed ones handle a single block.
-/

namespace SplitRadix.Leaf

/-- Mirrors `LeafVariant`. -/
inductive Pass where
  | evenEven
  | oddOdd
  | evenOdd
  | oddEven
  deriving DecidableEq, Repr

namespace Pass

/-- All passes in the order of their indices. -/
def all : List Pass := [evenEven, oddOdd, evenOdd, oddEven]

def index : Pass → Nat
  | evenEven => 0
  | oddOdd => 1
  | evenOdd => 2
  | oddEven => 3

def shortName : Pass → String
  | evenEven => "ee"
  | oddOdd => "oo"
  | evenOdd => "eo"
  | oddEven => "oe"

/-- The name of the pass as a fragment of a routine. Mirrors `leaf_name`. -/
def fragmentName (pass : Pass) : String := "leaf_" ++ pass.shortName

/-- Whether the pass runs blocks until the loop bound is reached. -/
def loops : Pass → Bool
  | evenEven | oddOdd => true
  | evenOdd | oddEven => false

/-- Whether the two halves of a block are interleaved in the output. -/
def oddOutput : Pass → Bool
  | oddOdd | evenOdd => true
  | evenEven | oddEven => false

end Pass

end SplitRadix.Leaf

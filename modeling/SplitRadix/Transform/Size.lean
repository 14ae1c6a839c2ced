import SplitRadix.Word

/-!
# Sizes a transform can have

The size and the leaf size are powers of two, a leaf holds at least two elements, and a transform
holds at least four leaves: the leaf passes always run at least two blocks of two leaves, so that
anything smaller would be written past its end.
-/

namespace SplitRadix.Transform

/-- The largest size of a transform. -/
def maxSize : Nat := 2 ^ 26

/-- The smallest transform the leaf passes cover exactly. Mirrors `min_size`. -/
def minSize (leaf : Nat) : Except Fault Nat := Word.mul 4 leaf

/-- Whether a transform of `size` can be made from leaves of `leaf` elements. The smallest size is
computed only for a leaf that is a power of two above one. Mirrors `is_supported`. -/
def isSupported (size leaf : Nat) : Except Fault Bool := do
  if Word.isPowerOfTwo size && Word.isPowerOfTwo leaf && 2 ≤ leaf then
    let least ← minSize leaf
    return least ≤ size && size ≤ maxSize
  else
    return false

/-- The number of levels between a leaf and `size`: log2 (size / leaf) for powers of two. Mirrors
`lut_levels`. -/
def levels (size leaf : Nat) : Except Fault Nat := do
  let leaves ← Word.div size leaf
  return Word.trailingZeros leaves

/-- How many blocks the leaf passes run. -/
structure IterationCounts where
  primary : Nat      -- blocks of the first even-even pass
  secondary : Nat    -- blocks of the odd-odd pass, and of the closing even-even pass
  deriving DecidableEq, Repr

/-- The counts with which the passes run `size / (2 * leaf)` blocks in total. -/
def IterationCounts.ofLeaves (leaves : Nat) : IterationCounts where
  primary := (leaves / 3 + 1) / 2
  secondary := (leaves / 3 + if 1 < leaves % 3 then 1 else 0) / 2

/-- The counts for a transform of `size`. Mirrors `IterationCounts.for_size`. -/
def IterationCounts.forSize (size leaf : Nat) : Except Fault IterationCounts := do
  let leaves ← Word.div size leaf
  return .ofLeaves leaves

end SplitRadix.Transform

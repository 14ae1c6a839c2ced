import SplitRadix.Word

/-!
# Input offsets of a leaf pass

Each leaf pass reads its input at eight offsets, which are written into its code. The order in which
the offsets appear depends on the pass.
-/

namespace SplitRadix.Leaf

inductive OffsetOrder where
  | primary
  | rotated     -- the last four entries rotated by two
  | trailing    -- the closing even-even pass
  deriving DecidableEq, Repr

namespace OffsetOrder

/-- The offsets in elements for a transform of size `n`. -/
def elements (order : OffsetOrder) (n : Nat) : List Nat :=
  match order with
  | primary => [0, n, n / 2, 3 * n / 2, n / 4, 5 * n / 4, 7 * n / 4, 3 * n / 4]
  | rotated => [0, n, n / 2, 3 * n / 2, 7 * n / 4, 3 * n / 4, n / 4, 5 * n / 4]
  | trailing => [7 * n / 4, 3 * n / 4, n / 4, 5 * n / 4, 0, n, 3 * n / 2, n / 2]

/-- `elements` in 64-bit words: the largest multiple computed is 7 * n. Mirrors
`OffsetOrder.elements`. -/
def elementsWord (order : OffsetOrder) (n : Nat) : Except Fault (List Nat) := do
  let _ ← Word.mul 7 n
  return order.elements n

/-- The values written into the code: four times each offset, in 64-bit words, cut to 32 bits.
Mirrors `OffsetOrder.patch_values`. -/
def patchValues (order : OffsetOrder) (n : Nat) : Except Fault (List UInt32) := do
  let offsets ← order.elementsWord n
  offsets.mapM fun element => do
    let value ← Word.mul 4 element
    return UInt32.ofNat value

end OffsetOrder

end SplitRadix.Leaf

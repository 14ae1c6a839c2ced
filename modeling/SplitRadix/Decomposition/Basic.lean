import SplitRadix.Word

/-!
# Split-radix decomposition

A transform above the leaf size splits into one quarter, two eighths and two more quarters, in that
order. Listing every node after its five parts gives the post-order list from which the calls of a
routine are made. Sizes at or below the leaf size give no node: the leaf passes cover them.

* `Node.parts`: the five parts of a node; `Node.split` computes them in 64-bit words.
* `count`: the number of nodes.
* `postOrder`: the list itself.
-/

namespace SplitRadix

/-- A subtransform: its size and its offset from the start of the output, in complex elements.
Mirrors `DecompositionNode`. -/
structure Node where
  size : Nat
  offset : Nat
  deriving DecidableEq, Repr, Inhabited

namespace Node

/-- The mark after the last node of a list. -/
def sentinel : Node := ⟨0, 0⟩

def isSentinel (node : Node) : Bool := node.size == 0

/-- The five parts of a node in order of traversal. -/
def parts (node : Node) : List Node :=
  [⟨node.size / 4, node.offset⟩,
   ⟨node.size / 8, node.offset + node.size / 4⟩,
   ⟨node.size / 8, node.offset + node.size / 4 + node.size / 8⟩,
   ⟨node.size / 4, node.offset + node.size / 2⟩,
   ⟨node.size / 4, node.offset + 3 * node.size / 4⟩]

/-- Where the five parts of a node start, computed in 64-bit words. -/
def partOffsets (node : Node) : Except Fault (Nat × Nat × Nat × Nat × Nat) := do
  let second ← Word.add node.offset (node.size / 4)
  let third ← Word.add second (node.size / 8)
  let fourth ← Word.add node.offset (node.size / 2)
  let thrice ← Word.mul 3 node.size
  let fifth ← Word.add node.offset (thrice / 4)
  return (node.offset, second, third, fourth, fifth)

/-- The parts of a node, computed in 64-bit words. Mirrors `children`. -/
def split (node : Node) : Except Fault (List Node) := do
  let (first, second, third, fourth, fifth) ← node.partOffsets
  return [⟨node.size / 4, first⟩, ⟨node.size / 8, second⟩, ⟨node.size / 8, third⟩,
    ⟨node.size / 4, fourth⟩, ⟨node.size / 4, fifth⟩]

end Node

namespace Decomposition

/-- The number of nodes for size `n`: the node itself, three quarters and two eighths. -/
def count (n leaf : Nat) : Nat :=
  if n ≤ leaf then 0 else 1 + 3 * count (n / 4) leaf + 2 * count (n / 8) leaf
termination_by n
decreasing_by all_goals omega

/-- The nodes for size `n` at `offset`, each after its five parts. -/
def postOrder (leaf n offset : Nat) : List Node :=
  if n ≤ leaf then []
  else
    postOrder leaf (n / 4) offset ++
    postOrder leaf (n / 8) (offset + n / 4) ++
    postOrder leaf (n / 8) (offset + n / 4 + n / 8) ++
    postOrder leaf (n / 4) (offset + n / 2) ++
    postOrder leaf (n / 4) (offset + 3 * n / 4) ++
    [⟨n, offset⟩]
termination_by n
decreasing_by all_goals omega

@[simp] theorem length_postOrder (leaf n offset : Nat) :
    (postOrder leaf n offset).length = count n leaf := by
  fun_induction postOrder leaf n offset with
  | case1 n offset h => rw [count, if_pos h]; rfl
  | case2 n offset h first second third fourth fifth =>
    rw [count, if_neg h]
    simp only [List.length_append, List.length_singleton, first, second, third, fourth, fifth]
    omega

/-- `count` in 64-bit words. Only the largest node can be too large for its parts to be computed.
Mirrors `count`. -/
def countWord (n leaf : Nat) : Except Fault Nat := do
  if n ≤ leaf then
    return 0
  else
    let _ ← Word.mul 3 n
    return count n leaf

end Decomposition

end SplitRadix

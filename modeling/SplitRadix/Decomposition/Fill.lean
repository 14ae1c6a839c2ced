import SplitRadix.Decomposition.Basic

/-!
# Writing a decomposition into a table

The post-order list of a decomposition is written into a table of nodes whose length was computed
beforehand, from a cursor on. A table that is too short stops the walk with a fault after the nodes
that fit were written.

* `fill`: write the list of a size at an offset.
* `elaborate`: the list of a transform that starts at offset 0, if its numbers fit their words.
-/

namespace SplitRadix.Decomposition

/-- A table of nodes and the slot the next node goes to. -/
structure Filling where
  slots : Array Node
  cursor : Nat
  deriving DecidableEq, Repr

/-- Put a node into the slot under the cursor and move on. -/
def store (node : Node) : Action Filling Fault Unit := fun f =>
  if h : f.cursor < f.slots.size then
    (.ok (), { f with slots := f.slots.set f.cursor node h, cursor := f.cursor + 1 })
  else
    (.error (.indexOutOfBounds f.slots.size f.cursor), f)

/-- Store the nodes for size `n` at `offset` in post-order. -/
def walk (leaf n offset : Nat) : Action Filling Fault Unit :=
  if n ≤ leaf then pure ()
  else do
    let (first, second, third, fourth, fifth) ← (Node.mk n offset).partOffsets
    walk leaf (n / 4) first
    walk leaf (n / 8) second
    walk leaf (n / 8) third
    walk leaf (n / 4) fourth
    walk leaf (n / 4) fifth
    store ⟨n, offset⟩
termination_by n
decreasing_by all_goals omega

/-- Store the nodes for size `n` at `offset` and tell how many they are. Mirrors `decompose`. -/
def fill (leaf n offset : Nat) : Action Filling Fault Nat := do
  let start ← Action.view Filling.cursor
  walk leaf n offset
  let stop ← Action.view Filling.cursor
  return stop - start

/-- The post-order list of a transform of size `n`, written into a table of the length it needs.
Mirrors `elaborate`. -/
def elaborate (n leaf : Nat) : Except Fault (List Node) := do
  let total ← countWord n leaf
  let (written, filled) := (fill leaf n 0).result ⟨Array.replicate total Node.sentinel, 0⟩
  let _ ← written
  return filled.slots.toList

end SplitRadix.Decomposition

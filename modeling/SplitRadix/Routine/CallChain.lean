import SplitRadix.Target.Backend
import SplitRadix.Transform.Parameters

/-!
# The call chain

Once the leaf passes are done, a routine calls one base case for every node of its decomposition.
The registers for the size, the output position and the twiddle position of a call are updated from
what they were at the call before, and only where they differ.

The chain is computed first, as a script of primitives and events, and then written by a target.

* `script`: the chain of a node list.
* `emit`: the chain as written by a target.
-/

namespace SplitRadix.CallChain

open Target
open Transform (Parameters)

/-- The register values at the last call, with zero for a size not loaded yet. Mirrors
`EmissionState`. -/
structure Registers where
  offset : Nat := 0    -- in elements
  size : Nat := 0
  lut : Nat := 0       -- in bytes
  deriving DecidableEq, Repr

/-- How many calls and register updates a chain has. Mirrors `ChainSummary`. -/
structure Summary where
  callSites : Nat := 0
  updates : Nat := 0
  elided : Nat := 0    -- updates left out because nothing changed
  deriving DecidableEq, Repr

/-- The addresses of the base cases. -/
structure Targets where
  x4 : Nat
  x8 : Nat
  deriving DecidableEq, Repr

/-- One line of a chain. -/
inductive Item where
  | request (primitive : Primitive)
  | note (event : Event)
  deriving DecidableEq, Repr

/-- A chain being computed: the items so far, the registers and the counts. -/
structure Draft where
  items : Array Item := #[]
  registers : Registers := {}
  summary : Summary := {}
  deriving DecidableEq, Repr

abbrev Script (α : Type) := Action Draft (Failure GenerateError) α

/-- Ask for a register update. -/
def update (primitive : Primitive) : Script Unit :=
  modify fun d => { d with
    items := d.items.push (.request primitive)
    summary := { d.summary with updates := d.summary.updates + 1 } }

/-- Leave an update out. -/
def elide : Script Unit :=
  modify fun d => { d with summary := { d.summary with elided := d.summary.elided + 1 } }

/-- A number for a signed 32-bit field. Mirrors `to_imm32`. -/
def immediate (operation : String) (value : Int) : Except (Failure GenerateError) Int :=
  if -(2 ^ 31) ≤ value ∧ value < 2 ^ 31 then .ok value
  else .error (.error (.encoding (.immediateOutOfRange operation value)))

/-- Change a register by `delta`, or leave it alone. -/
def adjust (role : Role) (delta : Int) : Script Unit :=
  if delta = 0 then elide
  else do
    let delta ← Action.ofExcept (immediate "add" delta)
    update (.add role delta)

/-- Bring the size register from `previous` to the size of `node` by a shift. Sizes at or below the
leaf size are never loaded. -/
def resize (leaf previous : Nat) (node : Node) : Script Unit :=
  if leaf < node.size ∧ node.size ≠ previous then
    update (.shift .size
      ((Word.trailingZeros node.size : Int) - (Word.trailingZeros previous : Int)))
  else elide

/-- Set the size register for the first call. -/
def loadSize (node : Node) : Script Unit := do
  let value ← Action.ofExcept (immediate "load" (Word.toSigned node.size))
  update (.load .size (Word.low32OfInt value))

/-- Call the base case for a node. -/
def callNode (leaf : Nat) (targets : Targets) (node : Node) (lut : Nat) : Script Unit :=
  let target := if node.size = 2 * leaf then targets.x4 else targets.x8
  modify fun d => { d with
    items := (d.items.push (.note (.callSite d.summary.callSites node lut target))).push
      (.request (.call target))
    summary := { d.summary with callSites := d.summary.callSites + 1 }
    registers :=
      { offset := node.offset
        size := if leaf < node.size then node.size else d.registers.size
        lut } }

/-- The part of the chain for one node. Mirrors one turn of the loop of `emit_call_chain`. -/
def visit (params : Parameters) (targets : Targets) (node : Node) : Script Unit := do
  match ← params.displacement node.size with
  | none => throw (.error (.planMismatch (.noTableEntry node.size)))
  | some lut =>
    let before := (← get).registers
    if before.size = 0 then
      loadSize node
    else
      let distance ← Word.subSigned (Word.toSigned node.offset) (Word.toSigned before.offset)
      adjust .output (← Word.mulSigned 8 distance)
      resize params.leaf before.size node
    adjust .lut (← Word.subSigned (Word.toSigned lut) (Word.toSigned before.lut))
    callNode params.leaf targets node lut

/-- The chain for all nodes up to the first sentinel: its items, and its summary or why it could not
be completed. -/
def script (params : Parameters) (targets : Targets) (nodes : List Node) :
    Except (Failure GenerateError) Summary × Array Item :=
  let nodes := nodes.takeWhile fun node => !node.isSentinel
  let (result, draft) := (nodes.forM (visit params targets)).result {}
  (result.map fun _ => draft.summary, draft.items)

/-- Have a target write one item. -/
def perform {σ : Type} (backend : Backend σ) : Item → Emit σ Unit
  | .request primitive => backend.emit primitive
  | .note event => Emit.note event

/-- Have a target write the chain. Mirrors `emit_call_chain`. -/
def emit {σ : Type} (backend : Backend σ) (params : Parameters) (targets : Targets)
    (nodes : List Node) : Emit σ Summary := do
  let (result, items) := script params targets nodes
  items.toList.forM (perform backend)
  Action.ofExcept result

end SplitRadix.CallChain

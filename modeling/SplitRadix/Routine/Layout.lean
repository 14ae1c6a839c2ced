import SplitRadix.Leaf.Schedule
import SplitRadix.Routine.Basic
import SplitRadix.Routine.CallChain

/-!
# Laying out a routine

A routine is written in this order: the two base cases, the prologue, the load of the first loop
bound, the leaf passes of its schedule, the bridge, the call chain, and the epilogue. Base cases,
entry and loop heads are put on fetch boundaries. Every kernel is copied first and then specialised
in place.
-/

namespace SplitRadix.Routine

open Target Kernel Leaf
open Transform (Parameters)

variable {σ : Type}

/-- What has been written since `start`, as a fragment. Mirrors `Emitter.record`. -/
def fragmentFrom (name : String) (start : Nat) : Emit σ Fragment := do
  let stop ← Emit.position
  return { name, offset := start, length := stop - start }

/-- Copy a kernel and specialise the copy. Mirrors `Emitter.copy`. -/
def copy (direction : Direction) (template : Template) (patches : List UInt32) :
    Emit σ Fragment := do
  let start ← Emit.append template.bytes
  Emit.onBuffer .template <| Code.Buffer.edit start template.length do
    template.applyDirection direction
    template.applyPatches patches
  fragmentFrom template.name start

/-- Write a primitive as a fragment of its own. -/
def emitNamed (backend : Backend σ) (name : String) (primitive : Primitive) :
    Emit σ Fragment := do
  let start ← Emit.position
  backend.emit primitive
  fragmentFrom name start

/-- Load the bound of the leaf loops. -/
def loadBound (backend : Backend σ) (bound : Nat) : Emit σ Unit :=
  backend.emit (.load .loopCounter (UInt32.ofNat bound))

/-- Write one leaf pass: load its loop bound and align its loop head where the schedule says so,
then copy its kernel with the offsets of its order. Mirrors one turn of the loop of
`Emitter.emit_leaf_passes`. -/
def emitPass (backend : Backend σ) (direction : Direction) (size : Nat) (step : Step) :
    Emit σ Fragment := do
  let template := backend.kernels.leaf step.pass
  match step.reload with
  | some bound => loadBound backend bound
  | none => pure ()
  if step.aligned then
    let padding ← backend.align (template.loopEntry.getD 0)
    Emit.note (.padded template.name padding)
  let patches ← step.order.patchValues size
  copy direction template patches

/-- Write a whole routine for a transform of `params`, whose decomposition is `nodes`. Mirrors the
writing half of `generate_into`. -/
def emit (backend : Backend σ) (params : Parameters) (direction : Direction)
    (schedule : Schedule) (nodes : List Node) : Emit σ (Routine × CallChain.Summary) := do
  let lib := backend.kernels
  let _ ← backend.align 0
  let x4 ← copy direction lib.x4 []
  let _ ← backend.align 0
  let x8 ← copy direction lib.x8 []
  let buffer ← Action.view Emission.buffer
  let targets : CallChain.Targets :=
    { x4 := ← buffer.addressOf x4.offset, x8 := ← buffer.addressOf x8.offset }
  let _ ← backend.align 0
  let prologue ← emitNamed backend "prologue" .prologue
  loadBound backend schedule.initial
  let leafInit ← copy direction lib.leafInit []
  let passes ← schedule.steps.mapM (emitPass backend direction params.size)
  let bridge ← copy direction lib.bridge []
  let chain ← CallChain.emit backend params targets nodes
  let epilogue ← emitNamed backend "epilogue" .epilogue
  let entryAddress ← buffer.addressOf prologue.offset
  let length ← Emit.position
  return ({
    size := params.size
    direction
    entryOffset := prologue.offset
    entryAddress
    length
    x4Offset := x4.offset
    x8Offset := x8.offset
    callSites := chain.callSites
    signMask := backend.signMask direction
    fragments := [x4, x8, prologue, leafInit] ++ passes ++ [bridge, epilogue] }, chain)

end SplitRadix.Routine

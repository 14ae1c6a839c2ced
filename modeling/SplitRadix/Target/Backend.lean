import SplitRadix.Kernel.Library
import SplitRadix.Target.Event

/-!
# Targets of code generation

A target supplies the kernels of a routine and writes the primitives between them. It may keep a
state of its own. Writing happens at the cursor of a code buffer; what was written before a failure
stays written.

* `Emission σ`: the buffer, the target's state and the events so far.
* `Backend σ`: a target with state `σ`.
-/

namespace SplitRadix.Target

open Code Kernel

/-- Writing in progress. -/
structure Emission (σ : Type) where
  buffer : Buffer
  own : σ              -- the target's state
  events : Array Event := #[]

/-- An operation that writes code. -/
abbrev Emit (σ α : Type) := Action (Emission σ) (Failure GenerateError) α

namespace Emit

variable {σ α : Type}

/-- Note an event. -/
def note (event : Event) : Emit σ Unit := fun e =>
  (.ok (), { e with events := e.events.push event })

/-- An operation on the buffer alone, whose errors are errors of a generation. -/
def onBuffer {ε : Type} (kind : ε → GenerateError) (act : Action Buffer (Failure ε) α) :
    Emit σ α := fun e =>
  let (result, buffer) := act e.buffer
  (result.mapError (Failure.map kind), { e with buffer })

/-- Write bytes at the cursor and tell where they start. -/
def append (bytes : Bytes) : Emit σ Nat := onBuffer .buffer (Buffer.append bytes)

/-- The offset of the cursor. -/
def position : Emit σ Nat := Action.view fun e => e.buffer.position

/-- The address of the cursor. -/
def address : Emit σ Nat := Action.view fun e => e.buffer.address

end Emit

structure Backend (σ : Type) where
  name : String
  kernels : Library
  fetchAlignment : Nat                    -- boundary for loop heads and entries
  maxPrimitive : Nat                      -- most bytes of a load, addition, shift or call
  signMask : Direction → List UInt32      -- four lanes
  prologueLength : Nat
  epilogueLength : Nat
  emit : Primitive → Emit σ Unit
  align : (bias : Nat) → Emit σ Nat       -- puts the byte `bias` past the cursor on the boundary

end SplitRadix.Target

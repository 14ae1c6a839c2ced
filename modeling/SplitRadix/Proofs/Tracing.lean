import SplitRadix.Proofs.Simulation
import SplitRadix.Routine.Generator

/-!
# Targets that keep a record

`Backend.traced` is a target that writes down everything it is asked for, in order and before it is
done, and is otherwise the target it was made from. It makes the requests of a routine something
that statements can be about.

* `Emit.Follows`: an operation on the recording target ends as the one on the plain target does.
* `CallChain.emit_follows`: so does a call chain.
-/

namespace SplitRadix.Target

/-- What a routine asks of its target. -/
inductive Command where
  | primitive (primitive : Primitive)
  | alignment (bias : Nat)
  deriving DecidableEq, Repr

/-- The state of a target together with all it was asked for. -/
structure Traced (σ : Type) where
  inner : σ
  commands : List Command

variable {σ α β : Type}

/-- The same emission as a recording target has it. -/
def Emission.traced (commands : List Command) (e : Emission σ) : Emission (Traced σ) :=
  { buffer := e.buffer, own := ⟨e.own, commands⟩, events := e.events }

def Emission.untraced (e : Emission (Traced σ)) : Emission σ :=
  { buffer := e.buffer, own := e.own.inner, events := e.events }

/-- Write a command down and do it. -/
def Emit.record (command : Command) (act : Emit σ α) : Emit (Traced σ) α := fun e =>
  let (result, t) := act e.untraced
  (result, t.traced (e.own.commands ++ [command]))

theorem Emit.record_ensures (command : Command) (act : Emit σ α) (e : Emission (Traced σ)) :
    (Emit.record command act).Ensures e
      (fun _ t => t.own.commands = e.own.commands ++ [command])
      fun _ t => t.own.commands = e.own.commands ++ [command] := by
  have hresult : (Emit.record command act).result e =
      ((act.result e.untraced).1,
        (act.result e.untraced).2.traced (e.own.commands ++ [command])) := rfl
  unfold Action.Ensures
  rw [hresult]
  rcases act.result e.untraced with ⟨_ | _, _⟩ <;> rfl

/-- The target that records what it is asked for. -/
def Backend.traced (backend : Backend σ) : Backend (Traced σ) :=
  { backend with
    emit := fun primitive => Emit.record (.primitive primitive) (backend.emit primitive)
    align := fun bias => Emit.record (.alignment bias) (backend.align bias) }

/-- The operation `act` on a recording target ends as `plain` does on the target itself. -/
def Emit.Follows (act : Emit (Traced σ) α) (plain : Emit σ α) : Prop :=
  ∀ e, plain.result e.untraced = ((act.result e).1, (act.result e).2.untraced)

theorem Emit.Follows.record (command : Command) (act : Emit σ α) :
    (Emit.record command act).Follows act :=
  fun _ => rfl

theorem sharesBuffer_untraced :
    SharesBuffer fun (e : Emission (Traced σ)) f => f = e.untraced where
  buffer h := by rw [h]; rfl
  edit h _ := by rw [h]; rfl
  note h _ := by rw [h]; rfl

/-- A recording target answers as the plain one does. -/
theorem Backend.traced_simulates (backend : Backend σ) :
    backend.traced.Simulates (fun e f => f = e.untraced) backend where
  kernels := rfl
  signMask := rfl
  emit _ _ _ h := by rw [h]; exact ⟨rfl, rfl⟩
  align _ _ _ h := by rw [h]; exact ⟨rfl, rfl⟩

theorem Emit.follows_of_simulates {act : Emit (Traced σ) α} {plain : Emit σ α}
    (h : act.Simulates (fun e f => f = e.untraced) plain) : act.Follows plain := fun e =>
  Prod.ext (h e e.untraced rfl).1 (h e e.untraced rfl).2

end SplitRadix.Target

namespace SplitRadix

open Target Kernel Leaf
open Transform (Parameters)

variable {σ α : Type}

theorem CallChain.emit_follows (backend : Backend σ) (params : Parameters)
    (targets : CallChain.Targets) (nodes : List Node) :
    (CallChain.emit backend.traced params targets nodes).Follows
      (CallChain.emit backend params targets nodes) :=
  Emit.follows_of_simulates
    (emit_simulates sharesBuffer_untraced backend.traced_simulates params targets nodes)

end SplitRadix

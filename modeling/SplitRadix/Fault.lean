/-!
# Faults and failures

An operation of this library ends in one of three ways: with a value, with an error of its own
kind, or with a fault. An error is an answer the caller is expected to handle. A fault is the end of
a computation whose numbers left their word, or that reached outside a table it was given; it is
reported by the same text everywhere.

* `Fault`: the conditions that stop a computation, with their texts.
* `Failure ε`: an error of kind `ε`, or a fault.
* `Action σ ε α`: an operation on a state `σ`. What it changed before it failed stays changed.
-/

namespace SplitRadix

/-- Conditions that stop a computation. -/
inductive Fault where
  | addOverflow
  | subOverflow
  | mulOverflow
  | divideByZero
  | indexOutOfBounds (length index : Nat)
  | rangeStart (start length : Nat)    -- a range that starts past the end
  | rangeEnd (stop length : Nat)       -- a range that starts inside and ends past the end
  | boundaryNotPowerOfTwo
  | fragmentNotWritten                 -- an edit past the bytes written so far
  | capacityOverflow
  | nulInName
  | instructionTooLong
  deriving DecidableEq, Repr

/-- The text of a fault. -/
def Fault.message : Fault → String
  | addOverflow => "attempt to add with overflow"
  | subOverflow => "attempt to subtract with overflow"
  | mulOverflow => "attempt to multiply with overflow"
  | divideByZero => "attempt to divide by zero"
  | indexOutOfBounds length index =>
    s!"index out of bounds: the len is {length} but the index is {index}"
  | rangeStart start length =>
    s!"range start index {start} out of range for slice of length {length}"
  | rangeEnd stop length => s!"range end index {stop} out of range for slice of length {length}"
  | boundaryNotPowerOfTwo => "boundary must be a power of two"
  | fragmentNotWritten => "assertion failed: start + len <= self.len"
  | capacityOverflow => "capacity overflow"
  | nulInName => "assertion failed: !string.contains(&0)"
  | instructionTooLong => "assertion failed: bytes.len() <= MAX_INSTRUCTION_LEN"

/-- Why an operation gave no value: an error of its own kind, or a fault. -/
inductive Failure (ε : Type) where
  | error (cause : ε)
  | fault (cause : Fault)
  deriving DecidableEq, Repr

/-- The same failure with its error seen as an error of a wider kind. -/
def Failure.map {ε δ : Type} (f : ε → δ) : Failure ε → Failure δ
  | error e => error (f e)
  | fault x => fault x

/-- An operation on a state. The state it reached is kept also when it fails. -/
abbrev Action (σ ε α : Type) := ExceptT ε (StateM σ) α

/-- A computation that can only fault, as one that can also report errors. -/
def liftFault {ε α : Type} : Except Fault α → Except (Failure ε) α
  | .ok a => .ok a
  | .error x => .error (.fault x)

instance {ε : Type} : MonadLift (Except Fault) (Except (Failure ε)) where
  monadLift := liftFault

instance {σ ε : Type} : MonadLift (Except Fault) (ExceptT (Failure ε) (StateM σ)) where
  monadLift x := ExceptT.mk (pure (liftFault x))

instance {σ : Type} : MonadLift (Except Fault) (ExceptT Fault (StateM σ)) where
  monadLift x := ExceptT.mk (pure x)

namespace Action

variable {σ ε δ α β : Type}

/-- Run on a state: the outcome and the state reached. -/
def result (act : Action σ ε α) (s : σ) : Except ε α × σ := act.run s

@[simp] theorem result_pure (a : α) (s : σ) : (pure a : Action σ ε α).result s = (.ok a, s) := rfl

/-- The second part runs on the state that the first one reached, if the first one gave a value. -/
theorem result_bind (act : Action σ ε α) (next : α → Action σ ε β) (s : σ) :
    (act >>= next).result s =
      match act.result s with
      | (.ok a, t) => (next a).result t
      | (.error e, t) => (.error e, t) := by
  have hbind : (act >>= next).result s =
      (ExceptT.bindCont next (act.result s).1 : StateM σ (Except ε β)) (act.result s).2 := rfl
  rw [hbind]
  rcases act.result s with ⟨_ | a, t⟩ <;> rfl

/-- Read something off the state. -/
def view (f : σ → α) : Action σ ε α := do return f (← get)

/-- See the errors of an action as errors of another kind. -/
def mapError (f : ε → δ) (act : Action σ ε α) : Action σ δ α := fun s =>
  match act s with
  | (.ok a, t) => (.ok a, t)
  | (.error e, t) => (.error (f e), t)

/-- A computation without state, as an action. -/
def ofExcept (x : Except ε α) : Action σ ε α := fun s => (x, s)

end Action

end SplitRadix

import SplitRadix.Routine.Capacity
import SplitRadix.Routine.Layout
import SplitRadix.Transform.Plan

/-!
# The generator

A generator is a target with a valid kernel library, its state and a session. It writes the routine
of a plan into the plan's region. Everything that can be wrong with a request is found out before
the first byte is written. The scratch memory is given back whenever a generation returns, and its
outcome is counted; a generation that ends in a fault does not return.

* `Generator.make`: check the library.
* `Generator.requiredCapacity`: a region this large always suffices.
* `Generator.generate`: write a routine.
-/

namespace SplitRadix

open Target Scratch
open Transform (Parameters Plan)

/-- A target ready for use. -/
structure Generator (σ : Type) where
  backend : Backend σ
  own : σ              -- the target's state
  session : Session

/-- What is asked of a generator. -/
structure Request where
  size : Nat
  leaf : Nat
  direction : Direction
  deriving DecidableEq, Repr

/-- A generation in progress: all that it can change, and its events. -/
structure Generation (σ : Type) where
  generator : Generator σ
  plan : Plan
  events : Array Event := #[]

/-- An operation within a generation. -/
abbrev Generate (σ α : Type) := Action (Generation σ) (Failure GenerateError) α

namespace Generator

variable {σ α : Type}

/-- A generator for a target, if the target's kernels are valid, and the event of its making.
Mirrors `Generator.with_session`. -/
def make (backend : Backend σ) (own : σ) (session : Session) :
    Except (Failure GenerateError) (Generator σ × Event) := do
  match backend.kernels.validate with
  | .ok () =>
    return ({ backend, own, session }, .targetReady backend.name backend.kernels.maxLength)
  | .error e => throw (e.map .template)

/-- A region of this many bytes suffices for a transform of `size`. Mirrors
`Generator.required_capacity`. -/
def requiredCapacity (g : Generator σ) (size leaf : Nat) : Except Fault Nat :=
  Routine.capacityBound g.backend size leaf

/-- Whether a request has a supported size and the plan is for it. Mirrors `validate_request`. -/
def validate (params : Parameters) (request : Request) : Except (Failure GenerateError) Unit := do
  let supported ← Transform.isSupported request.size request.leaf
  if !supported then
    throw (.error (.invalidSize request.size request.leaf))
  if params.size ≠ request.size ∨ params.leaf ≠ request.leaf then
    throw (.error (.planMismatch
      (.otherTransform params.size params.leaf request.size request.leaf)))
  params.checkTable.mapError (Failure.map fun cause => .planMismatch (.table cause))

/-- Note an event. -/
def note (event : Event) : Generate σ Unit :=
  modify fun g => { g with events := g.events.push event }

/-- An operation on the session, whose errors are errors of the generation. -/
def onSession {ε : Type} (kind : Failure ε → Failure GenerateError)
    (act : Action Session (Failure ε) α) : Generate σ α := fun g =>
  let (result, session) := act g.generator.session
  (result.mapError kind, { g with generator := { g.generator with session } })

/-- Write to the plan's region. -/
def onRegion (act : Emit σ α) : Generate σ α := fun g =>
  let (result, e) := act
    { buffer := .start g.plan.region, own := g.generator.own, events := g.events }
  (result, { g with
    generator := { g.generator with own := e.own }
    plan := { g.plan with region := e.buffer.overlay g.plan.region }
    events := e.events })

/-- Check the request, and write the routine if nothing is wrong with it. Mirrors
`generate_into`. -/
def attempt (request : Request) : Generate σ (Routine × CallChain.Summary) := do
  let params := (← get).plan.parameters
  Action.ofExcept (validate params request)
  let nodes ← onSession (Failure.map .scratch) (Session.decompose request.size request.leaf)
  let backend := (← get).generator.backend
  let required ← Routine.capacityBound backend request.size request.leaf
  let available := (← get).plan.region.length
  if available < required then
    note (.regionTooSmall available request.size required)
    throw (.error (.regionTooSmall required available))
  let schedule ← Leaf.Schedule.make request.size params.iterations
  note (.planned request.size request.leaf (nodes.size - 1)
    (schedule.steps.map fun step => step.pass))
  onRegion (Routine.emit backend params request.direction schedule nodes.toList)

/-- Update the statistics of the session. -/
def record (update : Action Statistics Fault Unit) : Generate σ Unit := fun g =>
  let (result, session) := (Session.record update).result g.generator.session
  (liftFault result, { g with generator := { g.generator with session } })

/-- Give the scratch memory back. -/
def release : Generate σ Unit :=
  modify fun g => { g with generator := { g.generator with session := g.generator.session.reset } }

/-- Count and announce the outcome of an attempt. -/
def conclude (request : Request) :
    Except (Failure GenerateError) (Routine × CallChain.Summary) → Generate σ Routine
  | .ok (routine, chain) => do
    release
    record (Statistics.recordRoutine request.size routine.length)
    record (Statistics.recordChain chain.callSites chain.updates chain.elided)
    note (.generated request.size request.direction routine.length chain.callSites chain.updates
      chain.elided)
    return routine
  | .error (.error cause) => do
    release
    record Statistics.recordFailure
    note (.failed request.size cause)
    throw (.error cause)
  | .error (.fault x) => throw (.fault x)

/-- Write the routine a request asks for into the plan's region. Mirrors `Generator.generate`. -/
def generate (request : Request) : Generate σ Routine := fun g =>
  let (result, g) := (attempt request).result g
  conclude request result g

theorem result_generate (request : Request) (g : Generation σ) : (generate request).result g =
    (conclude request ((attempt request).result g).1).result ((attempt request).result g).2 := by
  exact rfl

end Generator

end SplitRadix

import SplitRadix.Proofs.Tracing

/-!
# Targets that are observed

`Backend.observed` is a target that keeps a log: for every request what was asked, the buffer before
and after, and how it failed if it did. It is otherwise the target it was made from. The log of a
generation is everything that the target did in it, so a statement can be about what a target does in
one generation and not about what it might do elsewhere.

* `Observation`, `Observation.Spares`: one request, and which bytes it left alone.
* `Generation.observed`, `generate_observed`: a generation with an observed target ends as the one
  with the target itself.
-/

namespace SplitRadix.Target

variable {σ α : Type}

/-- One request to a target and what came of it. -/
structure Observation where
  command : Command
  before : Code.Buffer
  after : Code.Buffer
  failure : Option (Failure GenerateError)    -- none if it was carried out

/-- Of the bytes that were written before, the request left alone those at the `kept` offsets. -/
def Observation.Spares (o : Observation) (kept : Nat → Prop) : Prop :=
  ∀ i < o.before.position, kept i → o.after.written[i]? = o.before.written[i]?

/-- The state of a target together with the log of its requests. -/
structure Observed (σ : Type) where
  inner : σ
  log : List Observation

/-- The same emission as an observed target has it. -/
def Emission.observed (log : List Observation) (e : Emission σ) : Emission (Observed σ) :=
  { buffer := e.buffer, own := ⟨e.own, log⟩, events := e.events }

def Emission.unobserved (e : Emission (Observed σ)) : Emission σ :=
  { buffer := e.buffer, own := e.own.inner, events := e.events }

/-- How an operation failed. -/
def failureOf (result : Except (Failure GenerateError) α) : Option (Failure GenerateError) :=
  match result with
  | .ok _ => none
  | .error f => some f

/-- Carry out a command and log it. -/
def Emit.observe (command : Command) (act : Emit σ α) : Emit (Observed σ) α := fun e =>
  let (result, t) := act e.unobserved
  (result, t.observed (e.own.log ++ [⟨command, e.buffer, t.buffer, failureOf result⟩]))

/-- The target that keeps a log of what it is asked for. -/
def Backend.observed (backend : Backend σ) : Backend (Observed σ) :=
  { backend with
    emit := fun primitive => Emit.observe (.primitive primitive) (backend.emit primitive)
    align := fun bias => Emit.observe (.alignment bias) (backend.align bias) }

theorem Emit.result_observe (command : Command) (act : Emit σ α) (e : Emission (Observed σ)) :
    (Emit.observe command act).result e =
      ((act.result e.unobserved).1, (act.result e.unobserved).2.observed (e.own.log ++
        [⟨command, e.buffer, (act.result e.unobserved).2.buffer,
          failureOf (act.result e.unobserved).1⟩])) := rfl

/-- A request ends as it does without a log, and is logged with how it ended. -/
theorem Emit.observe_eq {command : Command} {act : Emit σ α} {e t : Emission (Observed σ)}
    {result : Except (Failure GenerateError) α}
    (h : (Emit.observe command act).result e = (result, t)) :
    t.own.log = e.own.log ++ [⟨command, e.buffer, t.buffer, failureOf result⟩] ∧
      act.result e.unobserved = (result, t.unobserved) := by
  rw [Emit.result_observe] at h
  rcases hr : act.result e.unobserved with ⟨result, u⟩
  rw [hr] at h
  cases h
  exact ⟨rfl, rfl⟩

/-- A log entry of a request that the target carried out. -/
inductive Backend.Performs (backend : Backend σ) : Observation → Prop where
  | primitive {p : Primitive} {e t : Emission σ} (h : (backend.emit p).result e = (.ok (), t)) :
    Performs backend ⟨.primitive p, e.buffer, t.buffer, none⟩
  | alignment {bias padding : Nat} {e t : Emission σ}
    (h : (backend.align bias).result e = (.ok padding, t)) :
    Performs backend ⟨.alignment bias, e.buffer, t.buffer, none⟩

theorem sharesBuffer_unobserved :
    SharesBuffer fun (e : Emission (Observed σ)) f => f = e.unobserved where
  buffer h := by rw [h]; rfl
  edit h _ := by rw [h]; rfl
  note h _ := by rw [h]; rfl

/-- An observed target answers as the plain one does. -/
theorem Backend.observed_simulates (backend : Backend σ) :
    backend.observed.Simulates (fun e f => f = e.unobserved) backend where
  kernels := rfl
  signMask := rfl
  emit _ _ _ h := by rw [h]; exact ⟨rfl, rfl⟩
  align _ _ _ h := by rw [h]; exact ⟨rfl, rfl⟩

end SplitRadix.Target

namespace SplitRadix

open Target
open Transform (Parameters)

variable {σ α : Type}

/-- The same generation as an observed target has it. -/
def Generation.observed (g : Generation σ) (log : List Observation) : Generation (Observed σ) :=
  { generator :=
      { backend := g.generator.backend.observed
        own := ⟨g.generator.own, log⟩
        session := g.generator.session }
    plan := g.plan
    events := g.events }

/-- `g` is the generation as the plain target has it. -/
def Generation.Observes (observed : Generation (Observed σ)) (g : Generation σ) : Prop :=
  ∃ log, observed = g.observed log

namespace Generation.Observes

theorem sharesCounters : SharesCounters (@Observes σ) where
  statistics := fun ⟨_, h⟩ => h ▸ rfl
  count := fun ⟨log, h⟩ _ => h ▸ ⟨log, rfl⟩
  release := fun ⟨log, h⟩ => h ▸ ⟨log, rfl⟩
  note := fun ⟨log, h⟩ _ => h ▸ ⟨log, rfl⟩

theorem onSession {ε : Type} (kind : Failure ε → Failure GenerateError)
    (act : Action Scratch.Session (Failure ε) α) :
    Action.Simulates Observes (Generator.onSession kind act : Generate (Observed σ) α)
      (Generator.onSession kind act) :=
  fun _ _ ⟨log, h⟩ => h ▸ ⟨rfl, log, rfl⟩

theorem onRegion {act : Emit (Observed σ) α} {plain : Emit σ α}
    (h : act.Simulates (fun e f => f = e.unobserved) plain) :
    Action.Simulates Observes (Generator.onRegion act) (Generator.onRegion plain) := by
  intro _ g hobserves
  obtain ⟨log, rfl⟩ := hobserves
  let e : Emission σ :=
    { buffer := .start g.plan.region, own := g.generator.own, events := g.events }
  have hresult : (Generator.onRegion plain).result g =
      ((plain.result e).1, { g with
        generator := { g.generator with own := (plain.result e).2.own }
        plan := { g.plan with region := (plain.result e).2.buffer.overlay g.plan.region }
        events := (plain.result e).2.events }) := rfl
  obtain ⟨hsame, hstate⟩ := h (e.observed log) e rfl
  rw [hresult, hsame, hstate]
  exact ⟨rfl, (act.result (e.observed log)).2.own.log, rfl⟩

end Generation.Observes

namespace Generator

open Generation (Observes)

theorem attempt_simulates (request : Request) :
    Action.Simulates Observes
      (attempt request : Generate (Observed σ) (Routine × CallChain.Summary)) (attempt request) := by
  refine .get fun _ start hstart => ?_
  obtain ⟨_, rfl⟩ := hstart
  refine (Action.Simulates.ofExcept _).bind fun _ => (Observes.onSession _ _).bind fun nodes => ?_
  refine .get fun _ stored hstored => ?_
  obtain ⟨_, rfl⟩ := hstored
  refine (Action.Simulates.lift _).bind fun required => .get fun _ measured hmeasured => ?_
  obtain ⟨_, rfl⟩ := hmeasured
  dsimp only
  by_cases hsmall : measured.plan.region.length < required
  · rw [if_pos (by exact hsmall), if_pos hsmall]
    exact (Observes.sharesCounters.noting _).bind fun _ => .throw _
  · rw [if_neg (by exact hsmall), if_neg hsmall]
    refine (Action.Simulates.lift _).bind fun schedule => ?_
    refine (Observes.sharesCounters.noting _).bind fun _ => ?_
    exact Observes.onRegion (Routine.emit_simulates sharesBuffer_unobserved
      (Backend.observed_simulates _) _ _ _ _)

/-- A generation with an observed target ends as one with the target itself. -/
theorem generate_observed (request : Request) (g : Generation σ) (log : List Observation) :
    ∃ more, (generate request).result (g.observed log) =
      (((generate request).result g).1, ((generate request).result g).2.observed more) := by
  have hsimulates : Action.Simulates Observes
      (generate request : Generate (Observed σ) Routine) (generate request) := by
    intro observed g hobserves
    obtain ⟨hattempt, hstates⟩ := attempt_simulates request observed g hobserves
    rw [result_generate, result_generate, hattempt]
    exact conclude_simulates Observes.sharesCounters request _ _ _ hstates
  obtain ⟨hresult, more, hstate⟩ := hsimulates _ g ⟨log, rfl⟩
  exact ⟨more, Prod.ext hresult.symm hstate⟩

end Generator

end SplitRadix

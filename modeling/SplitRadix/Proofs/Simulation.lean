import SplitRadix.Proofs.Ensures
import SplitRadix.Routine.Generator

/-!
# Writing the same routine twice

A routine looks at nothing but the buffer it writes to and what its target tells it. So two targets
that answer alike write the same routine, whatever else their states hold.

* `Action.Simulates`: two operations that end alike when they start alike.
* `SharesBuffer`, `SharesCounters`: what it takes for the states to be alike.
* `Routine.emit_simulates`: two targets that answer alike write the same routine.
* `Generator.conclude_simulates`: how an attempt is concluded depends on the counters only.
-/

namespace SplitRadix.Action

variable {σ τ ε α β : Type} {related : σ → τ → Prop}

/-- From related states both operations end in the same way, and in related states. -/
def Simulates (related : σ → τ → Prop) (act : Action σ ε α) (other : Action τ ε α) : Prop :=
  ∀ s t, related s t →
    (other.result t).1 = (act.result s).1 ∧ related (act.result s).2 (other.result t).2

namespace Simulates

theorem pure (a : α) : Simulates related (Pure.pure a : Action σ ε α) (Pure.pure a) :=
  fun _ _ h => ⟨rfl, h⟩

theorem bind {act : Action σ ε α} {other : Action τ ε α} {next : α → Action σ ε β}
    {otherNext : α → Action τ ε β} (h : act.Simulates related other)
    (hn : ∀ a, (next a).Simulates related (otherNext a)) :
    Simulates related (act >>= next) (other >>= otherNext) := by
  intro s t hrelated
  obtain ⟨hresult, hstates⟩ := h s t hrelated
  rw [result_bind, result_bind]
  rcases hs : act.result s with ⟨x, s'⟩
  rcases ht : other.result t with ⟨y, t'⟩
  rw [hs, ht] at hresult hstates
  cases hresult
  cases x with
  | error _ => exact ⟨rfl, hstates⟩
  | ok a => exact hn a s' t' hstates

theorem get {next : σ → Action σ ε α} {otherNext : τ → Action τ ε α}
    (h : ∀ s t, related s t → (next s).Simulates related (otherNext t)) :
    Simulates related (MonadState.get >>= next) (MonadState.get >>= otherNext) :=
  fun s t hrelated => h s t hrelated s t hrelated

theorem ofExcept (x : Except ε α) :
    Simulates related (Action.ofExcept x : Action σ ε α) (Action.ofExcept x) :=
  fun _ _ h => ⟨rfl, h⟩

theorem lift (x : Except Fault α) :
    Simulates related (liftM x : Action σ (Failure ε) α) (liftM x) := by
  cases x <;> exact fun _ _ h => ⟨rfl, h⟩

/-- What comes after an error does not matter. -/
theorem throw (e : ε) {next : α → Action σ ε β} {otherNext : α → Action τ ε β} :
    Simulates related (MonadExcept.throw e >>= next) (MonadExcept.throw e >>= otherNext) :=
  fun _ _ h => ⟨rfl, h⟩

theorem forM {act : α → Action σ ε Unit} {other : α → Action τ ε Unit}
    (h : ∀ a, (act a).Simulates related (other a)) :
    ∀ l : List α, Simulates related (l.forM act) (l.forM other)
  | [] => pure ()
  | a :: l => (h a).bind fun _ => forM h l

theorem mapM {act : α → Action σ ε β} {other : α → Action τ ε β}
    (h : ∀ a, (act a).Simulates related (other a)) (l : List α) :
    Simulates related (l.mapM act) (l.mapM other) := by
  induction l with
  | nil => exact pure []
  | cons a l ih =>
    rw [List.mapM_cons, List.mapM_cons]
    exact (h a).bind fun b => ih.bind fun bs => pure (b :: bs)

end Simulates

end SplitRadix.Action

namespace SplitRadix.Target

open Code

variable {σ τ α : Type}

/-- Related states have the same buffer. They stay related when the same is done to both buffers and
when the same is noted in both. -/
structure SharesBuffer (related : Emission σ → Emission τ → Prop) : Prop where
  buffer : ∀ {e f}, related e f → f.buffer = e.buffer
  edit : ∀ {e f}, related e f → ∀ buffer, related { e with buffer } { f with buffer }
  note : ∀ {e f}, related e f → ∀ event,
    related { e with events := e.events.push event } { f with events := f.events.push event }

namespace SharesBuffer

variable {related : Emission σ → Emission τ → Prop}

theorem view (hr : SharesBuffer related) (f : Buffer → α) :
    Action.Simulates related (Action.view fun e => f e.buffer : Emit σ α)
      (Action.view fun e => f e.buffer) :=
  fun _ _ h => ⟨congrArg (fun buffer => Except.ok (f buffer)) (hr.buffer h), h⟩

theorem noting (hr : SharesBuffer related) (event : Event) :
    Action.Simulates related (Emit.note event : Emit σ Unit) (Emit.note event) :=
  fun _ _ h => ⟨rfl, hr.note h event⟩

theorem onBuffer (hr : SharesBuffer related) {ε : Type} (kind : ε → GenerateError)
    (act : Action Buffer (Failure ε) α) :
    Action.Simulates related (Emit.onBuffer kind act : Emit σ α) (Emit.onBuffer kind act) := by
  intro e f h
  have hbuffer := hr.buffer h
  show (act f.buffer).1.mapError (Failure.map kind) = (act e.buffer).1.mapError (Failure.map kind) ∧
    related { e with buffer := (act e.buffer).2 } { f with buffer := (act f.buffer).2 }
  rw [hbuffer]
  exact ⟨rfl, hr.edit h _⟩

end SharesBuffer

/-- Two targets with the same kernels that answer alike. -/
structure Backend.Simulates (related : Emission σ → Emission τ → Prop) (backend : Backend σ)
    (other : Backend τ) : Prop where
  kernels : other.kernels = backend.kernels
  signMask : other.signMask = backend.signMask
  emit : ∀ p, (backend.emit p).Simulates related (other.emit p)
  align : ∀ bias, (backend.align bias).Simulates related (other.align bias)

end SplitRadix.Target

namespace SplitRadix

open Target Kernel Leaf
open Transform (Parameters)

variable {σ τ : Type} {related : Emission σ → Emission τ → Prop}

theorem CallChain.emit_simulates (hr : SharesBuffer related) {backend : Backend σ}
    {other : Backend τ} (hb : backend.Simulates related other) (params : Parameters)
    (targets : CallChain.Targets) (nodes : List Node) :
    (CallChain.emit backend params targets nodes).Simulates related
      (CallChain.emit other params targets nodes) := by
  refine (Action.Simulates.forM ?_ _).bind fun _ => .ofExcept _
  intro item
  cases item with
  | request p => exact hb.emit p
  | note event => exact hr.noting event

namespace Routine

theorem fragmentFrom_simulates (hr : SharesBuffer related) (name : String) (start : Nat) :
    Action.Simulates related (fragmentFrom name start : Emit σ Fragment) (fragmentFrom name start) :=
  (hr.view Code.Buffer.position).bind fun _ => .pure _

theorem copy_simulates (hr : SharesBuffer related) (direction : Direction) (template : Template)
    (patches : List UInt32) :
    Action.Simulates related (copy direction template patches : Emit σ Fragment)
      (copy direction template patches) := by
  refine (hr.onBuffer _ _).bind fun start => ?_
  exact (hr.onBuffer _ _).bind fun _ => fragmentFrom_simulates hr _ _

variable {backend : Backend σ} {other : Backend τ}

theorem emitNamed_simulates (hr : SharesBuffer related) (hb : backend.Simulates related other)
    (name : String) (p : Primitive) :
    (emitNamed backend name p).Simulates related (emitNamed other name p) := by
  refine (hr.view Code.Buffer.position).bind fun start => ?_
  exact (hb.emit p).bind fun _ => fragmentFrom_simulates hr _ _

theorem emitPass_simulates (hr : SharesBuffer related) (hb : backend.Simulates related other)
    (direction : Direction) (size : Nat) (step : Step) :
    (emitPass backend direction size step).Simulates related
      (emitPass other direction size step) := by
  have hcopy (template : Template) : Action.Simulates related
      (do copy direction template (← step.order.patchValues size) : Emit σ Fragment)
      (do copy direction template (← step.order.patchValues size)) :=
    (Action.Simulates.lift _).bind fun _ => copy_simulates hr _ _ _
  have halign (template : Template) : Action.Simulates related
      (do
        if step.aligned then
          let padding ← backend.align (template.loopEntry.getD 0)
          Emit.note (.padded template.name padding)
        copy direction template (← step.order.patchValues size) : Emit σ Fragment)
      (do
        if step.aligned then
          let padding ← other.align (template.loopEntry.getD 0)
          Emit.note (.padded template.name padding)
        copy direction template (← step.order.patchValues size)) := by
    cases step.aligned with
    | true =>
      exact (hb.align _).bind fun _ => (hr.noting _).bind fun _ => hcopy template
    | false => exact hcopy template
  unfold emitPass
  rw [hb.kernels]
  cases step.reload with
  | none => exact halign _
  | some bound => exact (hb.emit _).bind fun _ => halign _

/-- Two targets that answer alike write the same routine. -/
theorem emit_simulates (hr : SharesBuffer related) (hb : backend.Simulates related other)
    (params : Parameters) (direction : Direction) (schedule : Schedule) (nodes : List Node) :
    (Routine.emit backend params direction schedule nodes).Simulates related
      (Routine.emit other params direction schedule nodes) := by
  unfold Routine.emit
  rw [hb.kernels, hb.signMask]
  refine (hb.align _).bind fun _ => (copy_simulates hr _ _ _).bind fun x4 => ?_
  refine (hb.align _).bind fun _ => (copy_simulates hr _ _ _).bind fun x8 => ?_
  refine (hr.view id).bind fun buffer => ?_
  refine (Action.Simulates.lift _).bind fun _ => (Action.Simulates.lift _).bind fun _ => ?_
  refine (hb.align _).bind fun _ => (emitNamed_simulates hr hb _ _).bind fun prologue => ?_
  refine (hb.emit _).bind fun _ => (copy_simulates hr _ _ _).bind fun leafInit => ?_
  refine (Action.Simulates.mapM (emitPass_simulates hr hb direction params.size) _).bind
    fun passes => ?_
  refine (copy_simulates hr _ _ _).bind fun bridge => ?_
  refine (CallChain.emit_simulates hr hb params _ nodes).bind fun chain => ?_
  refine (emitNamed_simulates hr hb _ _).bind fun epilogue => ?_
  refine (Action.Simulates.lift _).bind fun entryAddress => ?_
  exact (hr.view Code.Buffer.position).bind fun _ => .pure _

end Routine

/-! ## Conclusions -/

/-- Related generations have the same counters. They stay related when these are set alike, when the
scratch memory of both is given back, and when the same is noted in both. -/
structure SharesCounters (related : Generation σ → Generation τ → Prop) : Prop where
  statistics : ∀ {g h}, related g h →
    h.generator.session.statistics = g.generator.session.statistics
  count : ∀ {g h}, related g h → ∀ statistics,
    related
      { g with generator := { g.generator with session := { g.generator.session with statistics } } }
      { h with generator := { h.generator with session := { h.generator.session with statistics } } }
  release : ∀ {g h}, related g h →
    related
      { g with generator := { g.generator with session := g.generator.session.reset } }
      { h with generator := { h.generator with session := h.generator.session.reset } }
  note : ∀ {g h}, related g h → ∀ event,
    related { g with events := g.events.push event } { h with events := h.events.push event }

namespace SharesCounters

variable {related : Generation σ → Generation τ → Prop}

theorem noting (hr : SharesCounters related) (event : Event) :
    Action.Simulates related (Generator.note event) (Generator.note event) :=
  fun _ _ h => ⟨rfl, hr.note h event⟩

theorem releasing (hr : SharesCounters related) :
    Action.Simulates related Generator.release Generator.release :=
  fun _ _ h => ⟨rfl, hr.release h⟩

theorem recording (hr : SharesCounters related) (update : Action Scratch.Statistics Fault Unit) :
    Action.Simulates related (Generator.record update) (Generator.record update) := by
  intro g h hrelated
  have hresult : ∀ {σ : Type} (g : Generation σ), (Generator.record update).result g =
      (liftFault (update.result g.generator.session.statistics).1,
        { g with
          generator := { g.generator with
            session := { g.generator.session with
              statistics := (update.result g.generator.session.statistics).2 } } }) := fun _ => rfl
  rw [hresult, hresult, hr.statistics hrelated]
  exact ⟨rfl, hr.count hrelated _⟩

end SharesCounters

/-- How an attempt is concluded depends on the counters only. -/
theorem Generator.conclude_simulates {related : Generation σ → Generation τ → Prop}
    (hr : SharesCounters related) (request : Request)
    (result : Except (Failure GenerateError) (Routine × CallChain.Summary)) :
    Action.Simulates related (conclude request result) (conclude request result) := by
  rcases result with (cause | x) | ⟨r, chain⟩
  · refine hr.releasing.bind fun _ => (hr.recording _).bind fun _ => ?_
    exact (hr.noting _).bind fun _ => .ofExcept (.error (Failure.error cause))
  · exact .ofExcept (.error (Failure.fault x))
  · refine hr.releasing.bind fun _ => (hr.recording _).bind fun _ => ?_
    refine (hr.recording _).bind fun _ => (hr.noting _).bind fun _ => ?_
    exact .pure r

end SplitRadix

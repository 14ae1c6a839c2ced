import SplitRadix.Proofs.Observation
import SplitRadix.Proofs.Serving
import SplitRadix.Target.Recorder

/-!
# Rejected requests

A request is rejected for its size, for a plan that does not belong to it, for lack of scratch memory
or for a region that is too small. All of this is found out before the target is asked for anything.
The one check that is left to the call chain, whether the table has an entry for a node, cannot fail
there, since the table was found long enough before. Nor can a kernel refuse the values that go into
it, since the library was found to have the right fields before.

A target may report any error, these among them. Then the generation passes on what the target said,
with the region as the target left it.

* `isRejection`, `isOfTarget`: the errors that reject a request, and those of a target.
* `not_reports`: both targets report errors of their own only.
* `reporting_covers`: any other error while writing was reported by the target, in its last request.
* `rejection_is_atomic`: a request that the generator rejects changes nothing but the count of
  failures.
* `late_refusal_spoils_region`: one that a target rejects may.
-/

namespace SplitRadix

open Target
open Transform (Parameters)

variable {σ α : Type}

/-- The errors that reject a request, as opposed to those of writing. -/
def GenerateError.isRejection : GenerateError → Bool
  | .invalidSize .. | .planMismatch _ | .regionTooSmall .. | .scratch _ => true
  | .buffer _ | .template _ | .encoding _ => false

/-- The errors of a target's own: no room at the cursor, or a number that cannot be encoded. -/
def GenerateError.isOfTarget : GenerateError → Bool
  | .buffer _ | .encoding _ => true
  | .invalidSize .. | .planMismatch _ | .regionTooSmall .. | .scratch _ | .template _ => false

theorem GenerateError.isOfTarget_of_isRejection {cause : GenerateError}
    (h : cause.isRejection = true) : cause.isOfTarget = false := by
  cases cause with
  | buffer _ => cases h
  | encoding _ => cases h
  | _ => rfl

/-- The target itself fails in this way on some occasion. -/
def Target.Backend.Reports (backend : Backend σ) (f : Failure GenerateError) : Prop :=
  (∃ p e t, (backend.emit p).result e = (.error f, t)) ∨
    ∃ bias e t, (backend.align bias).result e = (.error f, t)

/-! ## What targets report -/

/-- The operation never fails in this way. -/
def Target.Emit.Avoids (act : Emit σ α) (f : Failure GenerateError) : Prop :=
  ∀ e, act.Ensures e (fun _ _ => True) fun other _ => other ≠ f

namespace Target.Emit.Avoids

variable {β : Type} {f : Failure GenerateError} {cause : GenerateError}

theorem bind {act : Emit σ α} {next : α → Emit σ β} (h : act.Avoids f)
    (hnext : ∀ a, (next a).Avoids f) : Emit.Avoids (act >>= next) f := fun e =>
  Action.ensures_bind.2 ((h e).mono (fun a t _ => hnext a t) fun _ _ hf => hf)

theorem ofExcept {x : Except (Failure GenerateError) α} (h : x ≠ .error f) :
    Emit.Avoids (Action.ofExcept x : Emit σ α) f := fun _ =>
  Action.ensures_ofExcept.2 ⟨fun _ _ => trivial, fun _ hx heq => h (heq ▸ hx)⟩

/-- The buffer has no other errors. -/
theorem onBuffer (hcause : cause.isOfTarget = false)
    (act : Action Code.Buffer (Failure Code.BufferError) α) :
    Emit.Avoids (Emit.onBuffer .buffer act : Emit σ α) (.error cause) := by
  intro e
  rw [Emit.ensures_onBuffer]
  refine Action.ensures_iff.2 ⟨fun _ _ _ => trivial, fun f _ _ heq => ?_⟩
  cases f with
  | error c => cases heq; cases hcause
  | fault x => cases heq

theorem append (hcause : cause.isOfTarget = false) (bytes : Bytes) :
    Emit.Avoids (do let _ ← Emit.append bytes : Emit σ Unit) (.error cause) :=
  (onBuffer hcause _).bind fun _ _ => trivial

/-- A target all of whose operations avoid a failure does not report it. -/
theorem not_reports {backend : Backend σ} (hemit : ∀ p, (backend.emit p).Avoids f)
    (halign : ∀ bias, (backend.align bias).Avoids f) : ¬ backend.Reports f := by
  intro h
  rcases h with ⟨p, e, t, hr⟩ | ⟨bias, e, t, hr⟩
  · exact (hemit p e).of_error hr rfl
  · exact (halign bias e).of_error hr rfl

end Target.Emit.Avoids

namespace Machine

variable {cause : GenerateError}

theorem emitInstruction_avoids (hcause : cause.isOfTarget = false) (i : Instruction) :
    (emitInstruction i).Avoids (.error cause) := by
  intro e
  refine (emitInstruction_ensures i).mono (fun _ _ _ => trivial) fun f _ hf heq => ?_
  subst heq
  rcases hf with ⟨hfault, -⟩ | ⟨⟨c, hbuffer⟩, -⟩
  · cases hfault
  · cases hbuffer
    cases hcause

theorem emitPrimitive_avoids (hcause : cause.isOfTarget = false) (p : Primitive) :
    (emitPrimitive p).Avoids (.error cause) := by
  cases p with
  | prologue => exact .append hcause _
  | epilogue => exact .append hcause _
  | load role value => exact emitInstruction_avoids hcause _
  | add role delta => exact emitInstruction_avoids hcause _
  | call target => exact emitInstruction_avoids hcause _
  | shift role amount =>
    refine Emit.Avoids.bind (.ofExcept fun heq => ?_) fun i => emitInstruction_avoids hcause i
    cases hs : shiftInstruction role amount with
    | ok i => rw [hs] at heq; cases heq
    | error c => rw [hs] at heq; cases heq; cases hcause

theorem alignCursor_avoids (hcause : cause.isOfTarget = false) (bias : Nat) :
    (alignCursor bias).Avoids (.error cause) := by
  intro e
  refine (alignCursor_ensures bias).mono (fun _ _ _ => trivial) fun f _ hf heq => ?_
  subst heq
  rcases hf.2 with ⟨x, hfault, -⟩ | ⟨needed, hbuffer, -⟩
  · cases hfault
  · cases hbuffer
    cases hcause

/-- The x86-64 target reports errors of its own only. -/
theorem not_reports (hcause : cause.isOfTarget = false) : ¬ backend.Reports (.error cause) :=
  Emit.Avoids.not_reports (emitPrimitive_avoids hcause) (alignCursor_avoids hcause)

/-- It leaves it to the generator to reject requests. -/
theorem not_reports_rejection (hcause : cause.isRejection = true) :
    ¬ backend.Reports (.error cause) :=
  not_reports (GenerateError.isOfTarget_of_isRejection hcause)

end Machine

namespace Target.Recorder

variable {cause : GenerateError}

/-- The request that is refused is refused as one that cannot be encoded. -/
theorem count_avoids (hcause : cause.isOfTarget = false) (settings : Settings) :
    (count settings).Avoids (.error cause) := by
  intro e
  by_cases hrefused : (settings.refuse == some e.own.requests) = true
  · have hresult : (count settings).result e = (.error (.error (.encoding .invalidRegister)),
        { e with own := { e.own with requests := e.own.requests + 1 } }) := if_pos hrefused
    refine Action.ensures_iff.2 ⟨fun _ _ _ => trivial, fun f t hr heq => ?_⟩
    rw [hresult, heq] at hr
    cases hr
    cases hcause
  · have hresult : (count settings).result e = (.ok (),
        { e with own := { e.own with requests := e.own.requests + 1 } }) := if_neg hrefused
    exact Action.Ensures.of_result_ok hresult trivial

/-- So does the recording target, however it is set. -/
theorem not_reports (hcause : cause.isOfTarget = false) (settings : Settings) :
    ¬ (backend settings).Reports (.error cause) := by
  refine Emit.Avoids.not_reports (fun p => ?_) fun bias => ?_
  · have haddress : Emit.Avoids (Emit.address : Emit Recorder Nat) (.error cause) := fun _ => trivial
    exact (count_avoids hcause settings).bind fun _ => haddress.bind fun _ =>
      (Emit.Avoids.onBuffer hcause _).bind fun _ _ => trivial
  · exact (count_avoids hcause settings).bind fun _ =>
      (Emit.Avoids.onBuffer hcause _).bind fun _ _ => trivial

end Target.Recorder

/-! ## What can go wrong while writing -/

/-- A log that ends with a request that failed so. All requests before it were carried out. -/
def Target.Observation.Ends (last : Observation) (log : List Observation)
    (f : Failure GenerateError) : Prop :=
  ∃ before, log = before ++ [last] ∧ (∀ o ∈ before, o.failure = none) ∧ last.failure = some f

/-- One more request: carried out as those before it, or the one that a log ends with. -/
theorem Target.Emit.observe_ensures (command : Command) (act : Emit σ α)
    {e : Emission (Observed σ)} (h : ∀ o ∈ e.own.log, o.failure = none) :
    (Emit.observe command act).Ensures e (fun _ t => ∀ o ∈ t.own.log, o.failure = none)
      fun f t => act.result e.unobserved = (.error f, t.unobserved) ∧
        ∃ last : Observation, last.Ends t.own.log f ∧ last.after = t.buffer := by
  refine Action.ensures_iff.2 ⟨fun _ t hr o ho => ?_, fun f t hr => ?_⟩
  · rw [(Emit.observe_eq hr).1, List.mem_append, List.mem_singleton] at ho
    rcases ho with ho | rfl
    · exact h o ho
    · rfl
  · obtain ⟨hlog, hinner⟩ := Emit.observe_eq hr
    exact ⟨hinner, _, ⟨_, hlog, h, rfl⟩, rfl⟩

namespace Routine

/-- No account of what is left: the only question is which request failed with `cause`. -/
def reporting (backend : Backend σ) (cause : GenerateError) : Budget (Observed σ) where
  spare _ e := ∀ o ∈ e.own.log, o.failure = none
  kind _ := True
  failure f t := f = .error cause → backend.Reports f ∧
    ∃ last : Observation, last.Ends t.own.log f ∧ last.after = t.buffer

/-- What goes wrong while a routine is written is an error of the target, unless the target itself
reports another one. -/
theorem reporting_covers {backend : Backend σ} (hlib : backend.kernels.WellFormed)
    {cause : GenerateError} (hcause : cause.isOfTarget = false) {params : Parameters}
    (hsize : params.size ≤ 2 ^ 26) {nodes : List Node}
    (hentry : ∀ node ∈ CallChain.beforeSentinel nodes, params.displacement node.size ≠ .ok none) :
    (reporting backend cause).Covers backend.observed params nodes where
  mono _ hs := hs
  note _ hs := hs
  push _ hs := hs
  copyFailure hc _ hf _ heq := by
    subst heq
    cases hf with
    | noRoom _ c => cases hcause
    | refused hrefused c => exact absurd (accepts_of_copied hlib hsize hc) hrefused
  patches _ _ := nofun
  emit {p n e} _ hs := by
    refine (Emit.observe_ensures _ _ hs).mono (fun _ _ h => h) fun f t hf _ => ?_
    exact ⟨.inl ⟨p, _, _, hf.1⟩, hf.2⟩
  align {bias n e} _ hs := by
    refine (Emit.observe_ensures _ _ hs).mono (fun _ _ h => h) fun f t hf _ => ?_
    exact ⟨.inr ⟨bias, _, _, hf.1⟩, hf.2⟩
  prologue := trivial
  epilogue := trivial
  load _ := trivial
  addressOf _ _ _ _ := nofun
  call _ _ _ := trivial
  script targets _ _ := by
    refine ⟨fun _ _ => trivial, fun f hf _ heq => ?_⟩
    subst heq
    obtain ⟨node, hnode, d, t, hi⟩ := CallChain.script_failure hf
    cases hi with
    | noEntry hnone => exact absurd hnone (hentry node hnode)
    | unfit _ _ hf _ =>
      rcases hf with ⟨x, hfault⟩ | ⟨c, hencoding⟩
      · cases hfault
      · cases hencoding
        cases hcause

end Routine

/-- The same target, except that it rejects its request when it comes to the prologue. -/
def Target.Backend.refusing (backend : Backend σ) (cause : GenerateError) : Backend σ :=
  { backend with
    emit := fun
      | .prologue => throw (.error cause)
      | primitive => backend.emit primitive }

namespace Generator

variable {g : Generation σ} {request : Request} {nodes : Array Node} {s : Scratch.Session}
variable {cause : GenerateError}

/-- Once a prepared generation writes, any error that is not of the target's own kind was reported by
the target, in its last request. -/
theorem Prepared.reported {log : List Observation} (hp : Prepared (g.observed log) request nodes s)
    (hlib : g.generator.backend.kernels.WellFormed) (hcause : cause.isOfTarget = false)
    (schedule : Leaf.Schedule) {e : Emission (Observed σ)}
    (he : ∀ o ∈ e.own.log, o.failure = none) :
    (Routine.emit g.generator.backend.observed g.plan.parameters request.direction schedule
      nodes.toList).Ensures e (fun _ _ => True)
        (Routine.reporting g.generator.backend cause).failure := by
  have hsize : g.plan.parameters.size ≤ 2 ^ 26 := by
    obtain ⟨hsupported, hsize, -, -⟩ := validate_eq_ok.1 hp.valid
    rw [show g.plan.parameters.size = _ from hsize]
    exact Transform.le_of_isSupported hsupported
  have hcovers := Routine.reporting_covers hlib hcause hsize hp.displacement_ne_none
  exact (hcovers.emit_ensures (n := 0) hlib request.direction schedule he).mono
    (fun _ _ _ => trivial) fun _ _ hf => hf

/-- A target that does not report an error is not the reason for it. -/
theorem Prepared.unrejected (hp : Prepared g request nodes s)
    (hlib : g.generator.backend.kernels.WellFormed) (hcause : cause.isOfTarget = false)
    (hbackend : ¬ g.generator.backend.Reports (.error cause)) (schedule : Leaf.Schedule)
    (e : Emission σ) :
    (Routine.emit g.generator.backend g.plan.parameters request.direction schedule
      nodes.toList).Ensures e (fun _ _ => True) fun f _ => f ≠ .error cause := by
  refine Action.ensures_iff.2 ⟨fun _ _ _ => trivial, fun f t hr heq => ?_⟩
  have hprepared : Prepared (g.observed []) request nodes s := ⟨hp.valid, hp.stored⟩
  obtain ⟨hsame, -⟩ := Routine.emit_simulates sharesBuffer_unobserved
    g.generator.backend.observed_simulates g.plan.parameters request.direction schedule
    nodes.toList (e.observed []) e rfl
  rcases hobserved : (Routine.emit g.generator.backend.observed g.plan.parameters request.direction
    schedule nodes.toList).result (e.observed []) with ⟨result, v⟩
  rw [hr, hobserved] at hsame
  cases hsame
  have hreported := (hprepared.reported hlib hcause schedule (List.forall_mem_nil _)).of_error hobserved
  exact hbackend (heq ▸ (hreported heq).1)

/-- An attempt that rejects its request has not reached the target, or the target has rejected it. -/
theorem Attempt.of_rejection (hlib : g.generator.backend.kernels.WellFormed)
    (hcause : cause.isRejection = true) {t : Generation (Observed σ)}
    (h : Attempt (g.observed []) request (.error (.error cause)) t) :
    (t.plan = g.plan ∧ t.generator.own = ⟨g.generator.own, []⟩ ∧
      ∀ n, cause ≠ .planMismatch (.noTableEntry n)) ∨
    g.generator.backend.Reports (.error cause) ∧
      ∃ last : Observation, last.Ends t.generator.own.log (.error cause) ∧
        t.plan = { g.plan with region := last.after.overlay g.plan.region } := by
  cases h with
  | refused hvalid =>
    refine .inl ⟨rfl, rfl, fun n hn => ?_⟩
    rcases validate_eq_error hvalid with ⟨x, hf⟩ | hf | ⟨reason, hf, hreason⟩
    · cases hf
    · cases hf
      cases hn
    · cases hf
      cases hn
      exact hreason n rfl
  | @noScratch _ c _ _ _ hf =>
    refine .inl ⟨rfl, rfl, fun n hn => ?_⟩
    cases c with
    | error _ => cases hf; cases hn
    | fault _ => cases hf
  | tooSmall _ _ _ => exact .inl ⟨rfl, rfl, nofun⟩
  | @written _ _ _ _ _ e _ hp _ _ _ hwrite =>
    have hother := GenerateError.isOfTarget_of_isRejection hcause
    obtain ⟨hreports, last, hends, hafter⟩ :=
      (hp.reported hlib hother _ (List.forall_mem_nil _)).of_error hwrite rfl
    refine .inr ⟨hreports, last, hends, ?_⟩
    rw [hafter]
    rfl

/-- A request that is rejected by the generator changes nothing but the count of failures: the plan
with its region is what it was, and the target was asked for nothing. A missing table entry is never
the reason, since that could only be found out in the middle of writing. The one other way to the
same errors is a target that reports them: then it did so in the last of its requests, all before
were carried out, and the region is as that request left it. -/
theorem rejection_is_atomic (g : Generation σ) (request : Request)
    (hlib : g.generator.backend.kernels.validate = .ok ()) (cause : GenerateError)
    (hcause : cause.isRejection = true) (u : Generation σ)
    (hr : (generate request).result g = (.error (.error cause), u)) :
    u.generator.session.statistics = g.generator.session.statistics.withFailure ∧
    ∃ log, (generate request).result (g.observed []) = (.error (.error cause), u.observed log) ∧
      (log = [] ∧ u.plan = g.plan ∧ u.generator.own = g.generator.own ∧
          (∀ n, cause ≠ .planMismatch (.noTableEntry n)) ∨
        g.generator.backend.Reports (.error cause) ∧
          ∃ last : Observation, last.Ends log (.error cause) ∧
            u.plan = { g.plan with region := last.after.overlay g.plan.region }) := by
  have hlib := Kernel.Library.wellFormed_of_validate hlib
  obtain ⟨log, hobserved⟩ := generate_observed request g []
  rw [hr] at hobserved
  cases generate_ensures.of_error hobserved with
  | error hattempt hplan hown hsession =>
    refine ⟨?_, log, hobserved, ?_⟩
    · calc u.generator.session.statistics
        _ = _ := congrArg Scratch.Session.statistics hsession
        _ = g.generator.session.statistics.withFailure := by rw [hattempt.statistics]; rfl
    · rcases hattempt.of_rejection hlib hcause with ⟨htplan, htown, hentry⟩ | hreported
      · have hboth := hown.trans htown
        exact .inl ⟨congrArg Observed.log hboth, hplan.trans htplan, congrArg Observed.inner hboth,
          hentry⟩
      · obtain ⟨hreports, last, hends, htplan⟩ := hreported
        rw [show log = _ from congrArg Observed.log hown]
        exact .inr ⟨hreports, last, hends, hplan.trans htplan⟩

/-- A plan whose table lacks the last of four levels, in a region with old contents. -/
theorem rejection_is_atomic_of_short_table :
    let g : Generation Unit :=
      { generator := { backend := Machine.backend, own := (), session := .start (some 4096) }
        plan := { parameters := ⟨64, 4, .ofLeaves 16, [0, 2, 14]⟩, region := ⟨4099, [1, 2, 3]⟩ } }
    let cause : GenerateError := .planMismatch (.table (.tableTooShort 4 3))
    g.generator.backend.kernels.validate = .ok () ∧ cause.isRejection = true ∧
    ∃ u, (generate ⟨64, 4, .forward⟩).result g = (.error (.error cause), u) ∧
      u.plan = g.plan ∧ u.generator.own = g.generator.own ∧
      (generate ⟨64, 4, .forward⟩).result (g.observed []) =
        (.error (.error cause), u.observed []) ∧
      u.generator.session.statistics = g.generator.session.statistics.withFailure ∧
      ∀ n, cause ≠ .planMismatch (.noTableEntry n) := by
  intro g cause
  have hlib : g.generator.backend.kernels.validate = .ok () := Machine.kernels_validate
  have hcause : (match ((generate ⟨64, 4, .forward⟩).result g).1 with
      | .error (.error c) => decide (c = cause)
      | _ => false) = true := by
    decide +kernel
  rcases hr : (generate ⟨64, 4, .forward⟩).result g with ⟨(c | x) | r, u⟩
  · rw [hr] at hcause
    cases of_decide_eq_true hcause
    obtain ⟨hstatistics, log, hobserved, halone | hreported⟩ :=
      rejection_is_atomic g ⟨64, 4, .forward⟩ hlib cause rfl u hr
    · obtain ⟨rfl, hplan, hown, hentry⟩ := halone
      exact ⟨hlib, rfl, u, rfl, hplan, hown, hobserved, hstatistics, hentry⟩
    · exact absurd hreported.1 (Machine.not_reports_rejection rfl)
  · rw [hr] at hcause
    cases hcause
  · rw [hr] at hcause
    cases hcause

/-- A target that refuses late has written the base cases by then: the request is rejected with
its region changed, although the plan is right and the region is large enough. -/
theorem late_refusal_spoils_region :
    let cause : GenerateError := .planMismatch (.noTableEntry 8)
    let g : Generation Unit :=
      { generator :=
          { backend := Machine.backend.refusing cause, own := (), session := .start none }
        plan := { parameters := ⟨32, 4, .ofLeaves 8, Transform.referenceTable 4 3⟩
                  region := .blank 4096 2048 } }
    g.generator.backend.kernels.validate = .ok () ∧ cause.isRejection = true ∧
    ∃ u, (generate ⟨32, 4, .forward⟩).result g = (.error (.error cause), u) ∧
      u.plan.region ≠ g.plan.region := by
  intro cause g
  have hresult : (match (generate ⟨32, 4, .forward⟩).result g with
      | (.error (.error c), u) => decide (c = cause ∧ u.plan.region ≠ g.plan.region)
      | _ => false) = true := by
    decide +kernel
  rcases hr : (generate ⟨32, 4, .forward⟩).result g with ⟨(c | x) | r, u⟩
  · rw [hr] at hresult
    obtain ⟨rfl, hregion⟩ := of_decide_eq_true hresult
    exact ⟨Machine.kernels_validate, rfl, u, rfl, hregion⟩
  · rw [hr] at hresult
    cases hresult
  · rw [hr] at hresult
    cases hresult

end Generator

end SplitRadix

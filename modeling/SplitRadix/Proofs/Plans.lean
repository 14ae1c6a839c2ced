import SplitRadix.Proofs.Wear

/-!
# Which plans can be written

The counts and the twiddle table of a plan are the caller's. Neither is looked at before it is used.
Counts whose loop bounds leave 32 bits end the generation in a fault before anything is written. A
twiddle position too far from the one before is found out in the middle of writing, with the base
cases and the leaf passes already in the region. Nothing else is asked of a plan.

* `Stopped`: how a generation fails that has a valid request and room for its routine.
* `Attempt.stopped`, `Attempt.fit`: how an attempt fails, and what it needs not to.
* `generates_plans_that_fit`: which plans are written, and how the others fail.
* `far_twiddles_spoil_region`: a valid plan that fails while it is written.
-/

namespace SplitRadix.Generator

open Target Scratch Routine CallChain
open Transform (Parameters IterationCounts Plan)

/-- The generation of a valid request, with room for its routine, fails in this way and leaves this
plan. -/
inductive Stopped (g : Generation Unit) : Failure GenerateError → Plan → Prop where
  /-- A limited session refuses the memory for the nodes. -/
  | scratch (cause : ScratchError) (hlimit : g.generator.session.arena.limit ≠ none) :
    Stopped g (.error (.scratch cause)) g.plan
  /-- The loop bounds do not fit, and nothing is written. -/
  | loopBounds (x : Fault) (hunfit : ¬ g.plan.parameters.iterations.Fit) :
    Stopped g (.fault x) g.plan
  /-- The twiddle positions do not fit, and part of the routine is written. -/
  | twiddles {f : Failure GenerateError} (after : Plan) (hfit : g.plan.parameters.iterations.Fit)
    (hunfit : ¬ g.plan.parameters.TwiddlesFit)
    (hf : (∃ x, f = .fault x) ∨ ∃ cause, f = .error (.encoding cause)) :
    Stopped g f after

variable {g t : Generation Unit} {request : Request} {bound : Nat}

/-- Only a limit or the plan itself stops a generation. -/
theorem Stopped.elim {f : Failure GenerateError} {after : Plan} (h : Stopped g f after)
    (hlimit : g.generator.session.arena.limit = none) (hcounts : g.plan.parameters.iterations.Fit)
    (htwiddles : g.plan.parameters.TwiddlesFit) : False := by
  cases h with
  | scratch _ hlimited => exact hlimited hlimit
  | loopBounds _ hunfit => exact hunfit hcounts
  | twiddles _ _ hunfit _ => exact hunfit htwiddles

theorem Attempt.stopped (hbackend : g.generator.backend = Machine.backend)
    (hmemory : g.plan.region.base + g.plan.region.length < 2 ^ 64)
    (hvalid : validate g.plan.parameters request = .ok ())
    (hbound : capacityBound g.generator.backend request.size request.leaf = .ok bound)
    (hfits : bound ≤ g.plan.region.length) {f : Failure GenerateError}
    (h : Attempt g request (.error f) t) : Stopped g f t.plan := by
  cases h with
  | refused hrefused =>
    rw [hvalid] at hrefused
    cases hrefused
  | noScratch _ hnodes hf =>
    obtain ⟨hlimit, cause, rfl⟩ := decompose_of_valid hvalid hnodes
    rw [hf]
    exact .scratch cause hlimit
  | noBound _ hnone =>
    rw [hbound] at hnone
    cases hnone
  | tooSmall _ hsame hsmall =>
    rw [hbound] at hsame
    cases hsame
    omega
  | noSchedule _ hschedule =>
    refine .loopBounds _ fun hfit => ?_
    rw [Leaf.Schedule.make_of_fit request.size hfit] at hschedule
    cases hschedule
  | written hp hbound hfits hschedule hwrite =>
    obtain ⟨hunfit, hf⟩ := (hp.writes hbackend hmemory hbound hfits hschedule _).of_error hwrite
    exact .twiddles _ (Leaf.Schedule.fit_of_make hschedule) hunfit hf

theorem Attempt.fit (hbackend : g.generator.backend = Machine.backend)
    (hmemory : g.plan.region.base + g.plan.region.length < 2 ^ 64)
    {r : Routine × CallChain.Summary} (h : Attempt g request (.ok r) t) :
    g.plan.parameters.iterations.Fit ∧ g.plan.parameters.TwiddlesFit := by
  cases h with
  | written hp hbound hfits hschedule hwrite =>
    exact ⟨Leaf.Schedule.fit_of_make hschedule,
      (hp.writes hbackend hmemory hbound hfits hschedule _).of_ok hwrite⟩

/-- The x86-64 target writes exactly the plans whose loop bounds and twiddle positions fit, given a
table with all levels, room for the routine and scratch memory. The others end in a fault before
anything is written, or in a fault or an encoding error when part of the routine is in the region. No
plan leads to an error of the buffer or of a kernel. The one reservation is for an outcome that does
not fit the counters of the session. -/
theorem generates_plans_that_fit (g : Generation Unit) (request : Request)
    {iterations : IterationCounts} {table : List Nat} {levels bound : Nat}
    (hbackend : g.generator.backend = Machine.backend)
    (hplan : Parameters.withTables request.size request.leaf iterations table =
      .ok g.plan.parameters)
    (hlevels : Transform.levels request.size request.leaf = .ok levels)
    (htable : levels ≤ table.length)
    (hbound : g.generator.requiredCapacity request.size request.leaf = .ok bound)
    (hfits : bound ≤ g.plan.region.length)
    (hmemory : g.plan.region.base + g.plan.region.length < 2 ^ 64) :
    let fit := iterations.Fit ∧ g.plan.parameters.TwiddlesFit
    ((∃ r u, (generate request).result g = (.ok r, u)) → fit) ∧
    (fit → g.generator.session.arena.limit = none →
      (∃ r u, (generate request).result g = (.ok r, u)) ∨ Overruns g request) ∧
    ∀ f u, (generate request).result g = (.error f, u) →
      Stopped g f u.plan ∨ Overruns g request := by
  intro fit
  obtain ⟨hsupported, hparams⟩ := Parameters.eq_of_withTables hplan
  have hcounts : g.plan.parameters.iterations = iterations := by rw [hparams]
  have hvalid : validate g.plan.parameters request = .ok () := by
    refine validate_eq_ok.2 ⟨hsupported, by rw [hparams], by rw [hparams], ?_⟩
    rw [hparams]
    exact Parameters.checkTable_of_levels hlevels htable
  have hfail : ∀ f u, (generate request).result g = (.error f, u) →
      Stopped g f u.plan ∨ Overruns g request := by
    intro f u hr
    refine (generate_ensures.of_error hr).failed.imp_left fun ⟨t, hattempt, hsame⟩ => ?_
    rw [hsame]
    exact hattempt.stopped hbackend hmemory hvalid hbound hfits
  refine ⟨?_, ?_, hfail⟩
  · intro hr
    obtain ⟨r, u, hr⟩ := hr
    cases generate_ensures.of_ok hr with
    | routine hattempt _ _ _ =>
      show iterations.Fit ∧ _
      rw [← hcounts]
      exact hattempt.fit hbackend hmemory
  · intro hfit hlimit
    obtain ⟨hcount, htwiddles⟩ := hfit
    rcases hr : (generate request).result g with ⟨f | r, u⟩
    · refine .inr ((hfail f u hr).resolve_left fun hstopped => ?_)
      exact hstopped.elim hlimit (hcounts ▸ hcount) htwiddles
    · exact .inl ⟨r, u, rfl⟩

/-- A table whose second level starts at 2^20, and counts that are not those of the transform. -/
theorem generates_plans_that_fit_of_32 :
    let g : Generation Unit :=
      { generator := { backend := Machine.backend, own := (), session := .start none }
        plan := { parameters := ⟨32, 8, ⟨5, 7⟩, [3, 2 ^ 20]⟩, region := .blank 4099 1455 } }
    Parameters.withTables 32 8 ⟨5, 7⟩ [3, 2 ^ 20] = .ok g.plan.parameters ∧
    Transform.levels 32 8 = .ok 2 ∧ g.generator.requiredCapacity 32 8 = .ok 1455 ∧
    g.plan.region.length = 1455 ∧
    ∃ r u, (generate ⟨32, 8, .inverse⟩).result g = (.ok r, u) := by
  intro g
  have hplan : Parameters.withTables 32 8 ⟨5, 7⟩ [3, 2 ^ 20] = .ok g.plan.parameters := by
    refine eq_ok_of_toOption ?_
    show _ = some (⟨32, 8, ⟨5, 7⟩, [3, 2 ^ 20]⟩ : Parameters)
    decide +kernel
  have hlevels : Transform.levels 32 8 = .ok 2 := eq_ok_of_toOption (by decide +kernel)
  have hbound : g.generator.requiredCapacity 32 8 = .ok 1455 :=
    eq_ok_of_toOption (by decide +kernel)
  have hlength : g.plan.region.length = 1455 := List.length_replicate
  have hfit : IterationCounts.Fit ⟨5, 7⟩ ∧ g.plan.parameters.TwiddlesFit := by
    constructor
    · decide
    · show (⟨32, 8, ⟨5, 7⟩, [3, 2 ^ 20]⟩ : Parameters).TwiddlesFit
      decide +kernel
  have hresult := generates_plans_that_fit g ⟨32, 8, .inverse⟩ rfl hplan hlevels (Nat.le_refl 2)
    hbound (Nat.le_of_eq hlength.symm) (by rw [hlength]; decide)
  refine ⟨hplan, hlevels, hbound, hlength, (hresult.2.1 hfit rfl).resolve_right fun hoverruns => ?_⟩
  exact hoverruns.not_within rfl (by decide) Statistics.within_start

/-- Two valid plans for 32 elements with leaves of 8, in a region as large as the bound. With a level
that starts at 2^28, the generation ends in an encoding error; with one that starts at 2^61, in a
fault. Either way the region is not what it was. -/
theorem far_twiddles_spoil_region :
    let g (start : Nat) : Generation Unit :=
      { generator := { backend := Machine.backend, own := (), session := .start none }
        plan := { parameters := ⟨32, 8, ⟨1, 0⟩, [0, start]⟩, region := .blank 4096 1455 } }
    (∀ start, Parameters.withTables 32 8 ⟨1, 0⟩ [0, start] = .ok (g start).plan.parameters) ∧
    Transform.levels 32 8 = .ok 2 ∧
    (∀ start, (g start).generator.requiredCapacity 32 8 = .ok 1455) ∧
    (∃ u, (generate ⟨32, 8, .forward⟩).result (g (2 ^ 28)) =
        (.error (.error (.encoding (.immediateOutOfRange "add" (2 ^ 31)))), u) ∧
      u.plan.region ≠ (g (2 ^ 28)).plan.region) ∧
    ∃ u, (generate ⟨32, 8, .forward⟩).result (g (2 ^ 61)) = (.error (.fault .mulOverflow), u) ∧
      u.plan.region ≠ (g (2 ^ 61)).plan.region := by
  intro g
  have hplan : ∀ start,
      Parameters.withTables 32 8 ⟨1, 0⟩ [0, start] = .ok (g start).plan.parameters := by
    intro start
    have hsupported : Transform.isSupported 32 8 = .ok true :=
      Transform.isSupported_iff.2 ⟨5, 3, by decide⟩
    unfold Parameters.withTables
    rw [hsupported]
    rfl
  have hlevels : Transform.levels 32 8 = .ok 2 := eq_ok_of_toOption (by decide +kernel)
  have hbound : Routine.capacityBound Machine.backend 32 8 = .ok 1455 :=
    eq_ok_of_toOption (by decide +kernel)
  have spoils : ∀ start f, (match (generate ⟨32, 8, .forward⟩).result (g start) with
      | (.error c, u) => decide (c = f ∧ u.plan.region ≠ (g start).plan.region)
      | _ => false) = true →
      ∃ u, (generate ⟨32, 8, .forward⟩).result (g start) = (.error f, u) ∧
        u.plan.region ≠ (g start).plan.region := by
    intro start f hrun
    rcases hr : (generate ⟨32, 8, .forward⟩).result (g start) with ⟨c | r, u⟩
    · rw [hr] at hrun
      obtain ⟨rfl, hregion⟩ := of_decide_eq_true hrun
      exact ⟨u, rfl, hregion⟩
    · rw [hr] at hrun
      cases hrun
  exact ⟨hplan, hlevels, fun _ => hbound, spoils _ _ (by decide +kernel),
    spoils _ _ (by decide +kernel)⟩

end SplitRadix.Generator

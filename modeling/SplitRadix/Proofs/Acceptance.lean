import SplitRadix.Proofs.Reference
import SplitRadix.Proofs.Wear

/-!
# Which requests are served

The x86-64 target serves every request that passes its check and has a region as large as the bound,
as long as the plan has reference parameters and the session is not limited. Once the writing of a
routine has begun, it is completed.

* `Standard`: what is assumed of the plan and the session.
* `generates_exactly_valid_requests`: which requests succeed, and how the others fail.
-/

namespace SplitRadix.Generator

open Target Scratch Routine
open Transform (Parameters)

/-- The x86-64 target has a plan with reference parameters for 2^a elements and leaves of 2^b, in
memory that has addresses, and a session without a limit. -/
structure Standard (g : Generation Unit) (a b : Nat) : Prop where
  backend : g.generator.backend = Machine.backend
  size : g.plan.parameters.size = 2 ^ a
  leaf : g.plan.parameters.leaf = 2 ^ b
  iterations : g.plan.parameters.iterations = .ofLeaves (2 ^ (a - b))
  table : g.plan.parameters.table = Transform.referenceTable (2 ^ b) (a - b)
  order : 1 ≤ b ∧ b + 2 ≤ a ∧ a ≤ 26
  memory : g.plan.region.base + g.plan.region.length < 2 ^ 64
  limit : g.generator.session.arena.limit = none

namespace Standard

variable {g : Generation Unit} {request : Request} {a b n : Nat}

theorem isReference (h : Standard g a b) : g.plan.parameters.IsReference a b :=
  ⟨h.leaf, h.table, h.order.2.2⟩

theorem checkTable (h : Standard g a b) : g.plan.parameters.checkTable = .ok () := by
  refine Parameters.checkTable_of_le_length h.size h.leaf (by have := h.order; omega) ?_
  rw [h.table]
  simp [Transform.referenceTable]

/-- A valid request is for the transform of the plan. -/
theorem request_eq (h : Standard g a b) (hvalid : validate g.plan.parameters request = .ok ()) :
    request.size = 2 ^ a ∧ request.leaf = 2 ^ b := by
  obtain ⟨-, hsize, hleaf, -⟩ := validate_eq_ok.1 hvalid
  exact ⟨hsize.symm.trans h.size, hleaf.symm.trans h.leaf⟩

/-- The schedule of a valid request is made. -/
theorem schedule (h : Standard g a b) (size : Nat) :
    ∃ schedule, Leaf.Schedule.make size g.plan.parameters.iterations = .ok schedule := by
  obtain ⟨hb, hba, ha⟩ := h.order
  rw [h.iterations]
  exact ⟨_, Leaf.Schedule.make_of_le size (Nat.pow_le_pow_right (by decide) (by omega))⟩

/-- An attempt fails only at the check of the request or for a region that is too small. -/
theorem attempt_error (h : Standard g a b) {f : Failure GenerateError} {t : Generation Unit}
    (hattempt : Attempt g request (.error f) t) :
    validate g.plan.parameters request = .error f ∨
      ∃ bound, g.generator.requiredCapacity request.size request.leaf = .ok bound ∧
        g.plan.region.length < bound ∧
        f = .error (.regionTooSmall bound g.plan.region.length) := by
  cases hattempt with
  | refused hvalid => exact .inl hvalid
  | noScratch hvalid hnodes _ => exact absurd h.limit (decompose_of_valid hvalid hnodes).1
  | noBound hp hbound =>
    rw [h.backend, capacityBound_machine hp.supported] at hbound
    cases hbound
  | tooSmall hp hbound hsmall => exact .inr ⟨_, hbound, hsmall, rfl⟩
  | noSchedule hp hschedule =>
    obtain ⟨schedule, hmade⟩ := h.schedule request.size
    rw [hmade] at hschedule
    cases hschedule
  | written hp hbound hfits hschedule hwrite =>
    have hend := (hp.writes h.backend h.memory hbound hfits hschedule _).of_error hwrite
    exact absurd (CallChain.twiddlesFit_reference h.isReference h.size) hend.1

end Standard

/-- The x86-64 target serves exactly the valid requests whose routine is sure to fit the region. All
others fail at the check of the request or for the size of the region, so that nothing fails once the
writing has begun. The one reservation is for the counters of a session, which are words: a request
whose outcome they cannot take is not served. They can take 2^32 generations at least. -/
theorem generates_exactly_valid_requests {size leaf : Nat} (g : Generation Unit)
    (request : Request) (hbackend : g.generator.backend = Machine.backend)
    (hplan : Parameters.make size leaf = .ok g.plan.parameters)
    (hmemory : g.plan.region.base + g.plan.region.length < 2 ^ 64)
    (hlimit : g.generator.session.arena.limit = none) :
    let valid := Transform.isSupported request.size request.leaf = .ok true ∧
      request.size = size ∧ request.leaf = leaf ∧
      ∃ bound, g.generator.requiredCapacity request.size request.leaf = .ok bound ∧
        bound ≤ g.plan.region.length
    ((∃ r u, (generate request).result g = (.ok r, u)) → valid) ∧
    (valid → (∃ r u, (generate request).result g = (.ok r, u)) ∨ Overruns g request) ∧
    (∀ f u, (generate request).result g = (.error f, u) →
      validate g.plan.parameters request = .error f ∨
      (∃ bound, g.generator.requiredCapacity request.size request.leaf = .ok bound ∧
        g.plan.region.length < bound ∧
        f = .error (.regionTooSmall bound g.plan.region.length)) ∨
      Overruns g request) ∧
    ∀ n < 2 ^ 32, g.generator.session.Served n → ¬ Overruns g request ∧
      ∀ result u, (generate request).result g = (result, u) →
        u.generator.session.Served (n + 1) := by
  intro valid
  obtain ⟨a, b, rfl, rfl, hb, hba, ha, hparams⟩ := Parameters.eq_of_make hplan
  have h : Standard g a b :=
    ⟨hbackend, by rw [hparams], by rw [hparams], by rw [hparams], by rw [hparams], ⟨hb, hba, ha⟩,
      hmemory, hlimit⟩
  have hfail : ∀ f u, (generate request).result g = (.error f, u) → _ := fun f u hr =>
    (generate_ensures.of_error hr).failed.imp_left fun ⟨_, hattempt, _⟩ =>
      h.attempt_error hattempt
  refine ⟨?_, ?_, fun f u hr => or_assoc.1 (hfail f u hr), ?_⟩
  · intro hr
    obtain ⟨r, u, hr⟩ := hr
    cases generate_ensures.of_ok hr with
    | routine hattempt _ _ _ =>
      cases hattempt with
      | written hp hbound hfits _ _ =>
        obtain ⟨hsize, hleaf⟩ := h.request_eq hp.valid
        exact ⟨hp.supported, hsize, hleaf, _, hbound, hfits⟩
  · intro hvalid
    obtain ⟨hsupported, hsize, hleaf, bound, hbound, hfits⟩ := hvalid
    have hpass : validate g.plan.parameters request = .ok () := validate_eq_ok.2
      ⟨hsupported, h.size.trans hsize.symm, h.leaf.trans hleaf.symm, h.checkTable⟩
    rcases hr : (generate request).result g with ⟨f | r, u⟩
    · rcases hfail f u hr with (hrefused | ⟨bound', hbound', hsmall, -⟩) | hoverruns
      · rw [hpass] at hrefused
        cases hrefused
      · rw [hbound] at hbound'
        cases hbound'
        omega
      · exact .inr hoverruns
    · exact .inl ⟨r, u, rfl⟩
  · intro n hn hserved
    refine ⟨fun hoverruns => hoverruns.not_within hbackend hn hserved.statistics, ?_⟩
    exact fun result u hr => (outcome_of_result hr).served hbackend hserved hn

/-- A transform of 64 elements with leaves of 4 takes a region of 1755 bytes, at an address off every
boundary, and none that is shorter by a byte. -/
theorem generates_exactly_valid_requests_of_64 :
    let g (length : Nat) : Generation Unit :=
      { generator := { backend := Machine.backend, own := (), session := .start none }
        plan := { parameters := ⟨64, 4, .ofLeaves 16, Transform.referenceTable 4 4⟩
                  region := .blank 4099 length } }
    (∀ length, Parameters.make 64 4 = .ok (g length).plan.parameters) ∧
    (∀ length, ¬ Overruns (g length) ⟨64, 4, .inverse⟩) ∧
    (∃ r u, (generate ⟨64, 4, .inverse⟩).result (g 1755) = (.ok r, u)) ∧
    ¬ ∃ r u, (generate ⟨64, 4, .inverse⟩).result (g 1754) = (.ok r, u) := by
  intro g
  have hplan : ∀ length, Parameters.make 64 4 = .ok (g length).plan.parameters := by
    intro length
    refine eq_ok_of_toOption ?_
    show _ = some (⟨64, 4, .ofLeaves 16, Transform.referenceTable 4 4⟩ : Parameters)
    decide +kernel
  have hlength : ∀ length, (g length).plan.region.length = length := fun length =>
    List.length_replicate
  have hbound : Routine.capacityBound Machine.backend 64 4 = .ok 1755 :=
    eq_ok_of_toOption (by decide +kernel)
  have hmemory : ∀ length ≤ 1755,
      (g length).plan.region.base + (g length).plan.region.length < 2 ^ 64 := by
    intro length hle
    rw [hlength]
    show 4099 + length < 2 ^ 64
    omega
  have hfresh : ∀ length, ¬ Overruns (g length) ⟨64, 4, .inverse⟩ := fun _ hoverruns =>
    hoverruns.not_within rfl (by decide) Statistics.within_start
  have served length (hle : length ≤ 1755) :=
    generates_exactly_valid_requests (g length) ⟨64, 4, .inverse⟩ rfl (hplan length)
      (hmemory length hle) rfl
  refine ⟨hplan, hfresh, ?_, fun hr => ?_⟩
  · refine ((served 1755 (by decide)).2.1 ?_).resolve_right (hfresh 1755)
    exact ⟨Transform.isSupported_iff.2 ⟨6, 2, by decide⟩, rfl, rfl, 1755, hbound,
      Nat.le_of_eq (hlength 1755).symm⟩
  · obtain ⟨-, -, -, bound, hrequired, hle⟩ := (served 1754 (by decide)).1 hr
    cases hbound.symm.trans hrequired
    rw [hlength] at hle
    omega

end SplitRadix.Generator

import SplitRadix.Proofs.History
import SplitRadix.Proofs.MemoryLimit
import SplitRadix.Proofs.Rejection
import SplitRadix.Proofs.Serving

/-!
# What a session keeps from one generation to the next

Between two generations the arena of a session is at rest: it holds nothing, or the newest chunk of
an earlier generation, all of it free. That chunk counts against the limit. Where it is too small for
the nodes of a request, it cannot be given up for a larger one, and the request may be refused that a
new session with the same limit would serve. The other way round, a request that a new session
refuses is refused after any history.

* `Refuses`: a job ends for lack of scratch memory; `refuses_iff`: when it does.
* `Rested`, `Outcome.rested`: what is left of a session between two generations.
* `refusal_follows_kept_chunk`: which requests are refused after a history.
* `kept_chunk_refuses_request`: a request that is refused only because of an earlier one.
-/

namespace SplitRadix

open Target Scratch
open Transform (Plan)

variable {σ : Type}

/-- The bytes that the nodes of a request take, with the mark after the last one. -/
def Request.scratch (request : Request) : Nat :=
  Session.nodeSize * (Decomposition.count request.size request.leaf + 1)

/-! ## How much a request takes -/

namespace Decomposition

/-- How many nodes small transforms have. From 64 leaves on there are at least 27. -/
theorem count_two_pow_cases (b : Nat) {j : Nat} (h : 2 ≤ j) :
    count (2 ^ (b + j)) (2 ^ b) ∈ [1, 4, 6, 15] ∨ 27 ≤ count (2 ^ (b + j)) (2 ^ b) := by
  obtain ⟨c, hc⟩ : ∃ c : Nat → Nat, ∀ j, count (2 ^ (b + j)) (2 ^ b) = c j := ⟨_, fun _ => rfl⟩
  have h0 : c 0 = 0 := (hc 0).symm.trans (count_of_le (Nat.le_refl _))
  have h1 : c 1 = 1 := (hc 1).symm.trans (count_two_pow_one b)
  have h2 : c 2 = 1 := (hc 2).symm.trans (count_two_pow_two b)
  have step : ∀ j, c (j + 3) = 1 + 3 * c (j + 1) + 2 * c j := fun j => by
    rw [← hc, ← hc, ← hc]
    exact count_two_pow_add_three b j
  have h3 : c 3 = 4 := by rw [step 0, h1, h0]
  have h4 : c 4 = 6 := by rw [step 1, h2, h1]
  have h5 : c 5 = 15 := by rw [step 2, h3, h2]
  have hmany : ∀ j, 27 ≤ c (j + 6) := by
    intro j
    induction j using Nat.strongRecOn with
    | ind j ih =>
      rcases j with _ | _ | j
      · have h6 : c (0 + 6) = 1 + 3 * c 4 + 2 * c 3 := step 3
        omega
      · have h7 : c (0 + 1 + 6) = 1 + 3 * c 5 + 2 * c 4 := step 4
        omega
      · have := ih j (by omega)
        have : c (j + 1 + 1 + 6) = 1 + 3 * c (j + 6) + 2 * c (j + 5) := step (j + 5)
        omega
  rw [hc]
  rcases j with _ | _ | _ | _ | _ | _ | j
  · omega
  · omega
  · rw [h2]; decide
  · rw [h3]; decide
  · rw [h4]; decide
  · rw [h5]; decide
  · exact .inr (hmany j)

end Decomposition

namespace Scratch

/-- The nodes of small transforms take just what halving the usual size of a chunk leads to. -/
theorem Arena.halvable_of_supported {request : Request}
    (h : Transform.isSupported request.size request.leaf = .ok true) :
    Arena.minChunk ≤ request.scratch ∨ ∃ i, Arena.Halvable request.scratch i := by
  obtain ⟨a, b, ha, hb, -, hba, -⟩ := Transform.isSupported_iff.1 h
  have hcases := Decomposition.count_two_pow_cases b (j := a - b) (by omega)
  rw [show b + (a - b) = a by omega, ← ha, ← hb] at hcases
  unfold Request.scratch
  generalize Decomposition.count request.size request.leaf = nodes at hcases
  rcases hcases with hfew | hmany
  · right
    simp only [List.mem_cons, List.not_mem_nil, or_false] at hfew
    rcases hfew with rfl | rfl | rfl | rfl
    · exact ⟨3, by decide, by decide, by decide⟩
    · exact ⟨2, by decide, by decide, by decide⟩
    · exact ⟨2, by decide, by decide, by decide⟩
    · exact ⟨0, by decide, by decide, by decide⟩
  · left
    show 448 ≤ 16 * (nodes + 1)
    omega

/-- The nodes of a supported transform take less than 2^30 bytes. -/
theorem scratch_lt {request : Request}
    (h : Transform.isSupported request.size request.leaf = .ok true) :
    request.scratch < 2 ^ 30 := by
  have := Routine.count_lt_of_isSupported h
  show 16 * _ < 2 ^ 30
  omega

/-- Storing a decomposition fails if and only if the arena refuses the memory. -/
theorem Session.decompose_refused {request : Request}
    (h : Transform.isSupported request.size request.leaf = .ok true) (s : Session) :
    (Session.decompose request.size request.leaf).Ensures s
      (fun _ _ => s.arena.allocate request.scratch ≠ none)
      fun f _ => s.arena.allocate request.scratch = none ∧ ∃ cause, f = .error cause := by
  have hsmall := scratch_lt h
  have hcount : Decomposition.count request.size request.leaf + 1 < 2 ^ 64 := by
    have := Routine.count_lt_of_isSupported h
    omega
  have hfail := decompose_of_reserve (Transform.three_mul_lt_of_isSupported h) hcount
    (reserve_refused _ s)
  have harena := decompose_arena request.size request.leaf s
  refine Action.ensures_iff.2 ⟨fun _ t hr hnone => ?_, fun f t hr => ?_⟩
  · have htaken : s.arena.allocate request.scratch = some t.arena := harena.of_ok hr
    rw [hnone] at htaken
    cases htaken
  · obtain ⟨hlarge | hnone, hcause⟩ := hfail.of_error hr
    · have hmax : 2 ^ 63 - 1 < request.scratch := hlarge
      omega
    · exact ⟨hnone, hcause⟩

end Scratch

/-! ## When a generation is refused -/

namespace Generator

variable {g t : Generation σ} {request : Request}

/-- An attempt for which the arena has no memory ends with that. -/
theorem Attempt.of_refused (hvalid : validate g.plan.parameters request = .ok ())
    (hnone : g.generator.session.arena.allocate request.scratch = none)
    {result : Except (Failure GenerateError) (Routine × CallChain.Summary)}
    (h : Attempt g request result t) : ∃ cause, result = .error (.error (.scratch cause)) := by
  have hdecompose := Session.decompose_refused (validate_eq_ok.1 hvalid).1 g.generator.session
  have hstored : ∀ {nodes : Array Node} {s : Session}, ¬ Prepared g request nodes s :=
    fun hp => hdecompose.of_ok hp.stored hnone
  cases h with
  | refused hrefused =>
    rw [hvalid] at hrefused
    cases hrefused
  | noScratch _ hnodes hf =>
    obtain ⟨-, cause, rfl⟩ := hdecompose.of_error hnodes
    exact ⟨cause, congrArg Except.error hf⟩
  | noBound hp _ => exact absurd hp hstored
  | tooSmall hp _ _ => exact absurd hp hstored
  | noSchedule hp _ => exact absurd hp hstored
  | written hp _ _ _ _ => exact absurd hp hstored

/-- An attempt ends for lack of memory only where the arena has none. -/
theorem Attempt.allocate_eq_none (hlib : g.generator.backend.kernels.WellFormed)
    (hvalid : validate g.plan.parameters request = .ok ()) {cause : ScratchError}
    (hbackend : ¬ g.generator.backend.Reports (.error (.scratch cause)))
    (h : Attempt g request (.error (.error (.scratch cause))) t) :
    g.generator.session.arena.allocate request.scratch = none := by
  cases h with
  | refused hrefused =>
    rw [hvalid] at hrefused
    cases hrefused
  | noScratch _ hnodes _ =>
    have hdecompose := Session.decompose_refused (validate_eq_ok.1 hvalid).1 g.generator.session
    exact (hdecompose.of_error hnodes).1
  | written hp _ _ _ hwrite =>
    exact absurd rfl ((hp.unrejected hlib rfl hbackend _ _).of_error hwrite)

/-- A job ends for lack of scratch memory. -/
def Refuses (g : Generator σ) (job : Job) : Prop :=
  ∃ cause u, (generate job.request).result { generator := g, plan := job.plan } =
    (.error (.error (.scratch cause)), u)

/-- A valid job is refused if and only if the arena has no memory for its nodes. -/
theorem refuses_iff {g : Generator σ} {job : Job} (hlib : g.backend.kernels.WellFormed)
    (hbackend : ∀ cause, ¬ g.backend.Reports (.error (.scratch cause)))
    (hvalid : validate job.plan.parameters job.request = .ok ())
    (hroom : g.session.statistics.failures + 1 < 2 ^ 64) :
    g.Refuses job ↔ g.session.arena.allocate job.request.scratch = none := by
  constructor
  · rintro ⟨cause, u, hr⟩
    cases generate_ensures.of_error hr with
    | error hattempt _ _ _ => exact hattempt.allocate_eq_none hlib hvalid (hbackend cause)
  · intro hnone
    rcases hr : (attempt job.request).result { generator := g, plan := job.plan } with ⟨result, t⟩
    have hattempt := attempt_of_result hr
    obtain ⟨cause, rfl⟩ := hattempt.of_refused hvalid hnone
    have hconclude := conclude_error job.request (.scratch cause) t
    rw [hattempt.statistics, if_pos (by exact hroom)] at hconclude
    unfold Refuses
    rw [result_generate, hr]
    rcases hu : (conclude job.request (.error (.error (.scratch cause)))).result t with ⟨f | _, u⟩
    · exact ⟨cause, u, by rw [hconclude.of_error hu]⟩
    · exact (hconclude.of_ok hu).elim

/-! ## Any history -/

/-- A session between two generations, after at most `n` failures. -/
structure Rested (limit n : Nat) (s : Session) : Prop where
  arena : s.arena.AtRest limit
  failures : s.statistics.failures ≤ n

/-- The session is at rest again after a generation that returns. -/
theorem Outcome.rested {limit n : Nat} {answer : Except (Failure GenerateError) Routine}
    {result : Except GenerateError Routine} {u : Generation σ}
    (hrested : Rested limit n g.generator.session) (h : Outcome g request answer u)
    (hresult : returned answer = .ok result) : Rested limit (n + 1) u.generator.session := by
  have hreset : ∀ {result : Except (Failure GenerateError) (Routine × CallChain.Summary)}
      {t : Generation σ}, Attempt g request result t →
      t.generator.session.arena.reset.AtRest limit := by
    intro result t hattempt
    rcases hattempt.arena with hsame | htaken
    · rw [hsame]
      exact hrested.arena.reset
    · exact hrested.arena.next htaken
  have hfailures := hrested.failures
  cases h with
  | routine hattempt _ _ hsession =>
    rw [hsession]
    refine ⟨hreset hattempt, ?_⟩
    rw [hattempt.statistics]
    exact Nat.le_succ_of_le hfailures
  | error hattempt _ _ hsession =>
    rw [hsession]
    refine ⟨hreset hattempt, ?_⟩
    rw [hattempt.statistics]
    exact Nat.succ_le_succ hfailures
  | fault _ => cases hresult
  | uncounted _ _ => cases hresult
  | uncountedError _ _ => cases hresult

theorem length_serve {jobs : List Job} {g last : Generator σ} {answers : List Answer}
    (h : g.serve jobs = .ok (answers, last)) : answers.length = jobs.length := by
  induction jobs generalizing g answers with
  | nil =>
    cases h
    rfl
  | cons job jobs ih =>
    unfold serve at h
    obtain ⟨result, -, h⟩ := exceptBind_eq_ok.1 h
    obtain ⟨⟨rest, _⟩, hrest, h⟩ := exceptBind_eq_ok.1 h
    cases h
    exact congrArg (· + 1) (ih hrest)

/-- A session is at rest after any list of jobs that all return. -/
theorem rested_of_serve {backend : Backend σ} {own : σ} {limit : Nat} {jobs : List Job}
    {answers : List Answer} {last : Generator σ}
    (h : serve { backend, own, session := .start (some limit) } jobs = .ok (answers, last)) :
    last.backend = backend ∧ Rested limit jobs.length last.session := by
  have hstart : Rested limit 0 (Session.start (some limit)) := ⟨.empty, Nat.le_refl 0⟩
  rw [← length_serve h]
  refine serve_induction (fun past g => g.backend = backend ∧ Rested limit past.length g.session)
    ?_ jobs [] ⟨rfl, hstart⟩ h
  intro past g plan request answer u result hpast houtcome hresult hsame
  rw [List.length_append]
  exact ⟨hsame.trans hpast.1, houtcome.rested hpast.2 hresult⟩

/-- A valid request is refused after a history if a new session with the same limit refuses it, and
also if the chunk that the history left behind is too small for it and leaves no room for another.
A new session refuses it if it needs a chunk larger than the limit. -/
theorem refusal_follows_kept_chunk (backend : Backend σ) (own : σ) (limit : Nat)
    {g last : Generator σ} {event : Event}
    (hmake : make backend own (.start (some limit)) = .ok (g, event))
    (hbackend : ∀ cause, ¬ backend.Reports (.error (.scratch cause)))
    {jobs : List Job} {answers : List Answer} (hserve : g.serve jobs = .ok (answers, last))
    (hfew : jobs.length + 1 < 2 ^ 64) (job : Job)
    (hvalid : validate job.plan.parameters job.request = .ok ()) :
    let bytes := job.request.scratch
    let kept := last.session.memoryUsed
    (g.Refuses job ↔ limit < Arena.chunkSize bytes) ∧
    (last.Refuses job ↔ g.Refuses job ∨ 0 < kept ∧ kept < bytes ∧
      limit < kept + Arena.chunkSize (max (2 * kept) (max bytes Arena.minChunk))) := by
  intro bytes kept
  obtain ⟨hlibrary, rfl⟩ := make_eq_ok hmake
  have hlib := Kernel.Library.wellFormed_of_validate hlibrary
  obtain ⟨rfl, harena, hfailures⟩ := rested_of_serve hserve
  have hsupported := (validate_eq_ok.1 hvalid).1
  have hsmall : bytes < 2 ^ 30 := scratch_lt hsupported
  have hpos : 0 < bytes := Nat.mul_pos (by decide) (Nat.succ_pos _)
  have hshape := Arena.halvable_of_supported hsupported
  have hnew : Refuses ⟨last.backend, own, .start (some limit)⟩ job ↔ _ :=
    refuses_iff hlib hbackend hvalid (show 0 + 1 < 2 ^ 64 by decide)
  have hlast := refuses_iff hlib hbackend hvalid
    (show last.session.statistics.failures + 1 < _ by omega)
  have hempty : (Session.start (some limit)).arena.allocate bytes = none ↔ _ :=
    Arena.allocate_empty hpos (by omega) hshape
  refine ⟨hnew.trans hempty, ?_⟩
  rw [hlast, hnew.trans hempty]
  exact harena.allocate_eq_none hpos (by omega) hshape

/-- A job for the x86-64 target with reference parameters, in a region of `capacity` bytes. -/
def referenceJob (size leaf levels capacity : Nat) : Job where
  plan :=
    { parameters :=
        ⟨size, leaf, .ofLeaves (size / leaf), Transform.referenceTable leaf levels⟩
      region := .blank 4096 capacity }
  request := ⟨size, leaf, .forward⟩

/-- A routine for 32 elements and a refused size leave a chunk of 448 bytes. With a limit of 1408 bytes
the nodes of 1024 elements, which take 944, just fit beside it. -/
theorem refusal_follows_kept_chunk_of_1408 :
    let jobs := [referenceJob 32 8 2 1455, referenceJob 24 8 2 1455]
    let large := referenceJob 1024 8 7 4875
    ∃ g event answers last,
      make Machine.backend () (.start (some 1408)) = .ok (g, event) ∧
      (∀ cause, ¬ Machine.backend.Reports (.error (.scratch cause))) ∧
      g.serve jobs = .ok (answers, last) ∧ last.session.memoryUsed = 448 ∧
      validate large.plan.parameters large.request = .ok () ∧ large.request.scratch = 944 ∧
      ¬ g.Refuses large ∧ ¬ last.Refuses large := by
  intro jobs large
  let g : Generator Unit := { backend := Machine.backend, own := (), session := .start (some 1408) }
  have hlibrary : Machine.backend.kernels.validate = .ok () := Machine.kernels_validate
  have hmake := make_of_validate hlibrary () (.start (some 1408))
  have hbackend : ∀ cause, ¬ Machine.backend.Reports (.error (.scratch cause)) :=
    fun _ => Machine.not_reports_rejection rfl
  have hvalid : validate large.plan.parameters large.request = .ok () :=
    eq_ok_of_toOption (by decide +kernel)
  have hscratch : large.request.scratch = 944 := by decide +kernel
  have hused : (g.serve jobs).toOption.map (fun p => p.2.session.memoryUsed) = some 448 := by
    decide +kernel
  cases hserve : g.serve jobs with
  | error x =>
    rw [hserve] at hused
    cases hused
  | ok result =>
    rw [hserve] at hused
    have hkept : result.2.session.memoryUsed = 448 := Option.some.inj hused
    have hrefusal := refusal_follows_kept_chunk Machine.backend () 1408 hmake hbackend hserve
      (by decide) large hvalid
    rw [hkept, hscratch] at hrefusal
    have hnew : ¬ g.Refuses large := fun h => absurd (hrefusal.1.1 h) (by decide)
    refine ⟨g, _, result.1, result.2, hmake, hbackend, hserve, hkept, hvalid, hscratch, hnew, ?_⟩
    exact fun h => (hrefusal.2.1 h).elim hnew fun hkept => absurd hkept.2.2 (by decide)

/-- With a limit of 1000 bytes a new session serves a request for 1024 elements. After one for 32
elements it refuses the same request. -/
theorem kept_chunk_refuses_request :
    let g : Generator Unit :=
      { backend := Machine.backend, own := (), session := .start (some 1000) }
    let large := referenceJob 1024 8 7 4875
    (∃ r u, (generate large.request).result { generator := g, plan := large.plan } = (.ok r, u)) ∧
    ¬ g.Refuses large ∧
    ∃ answers last, g.serve [referenceJob 32 8 2 1455] = .ok (answers, last) ∧
      last.Refuses large := by
  intro g large
  have hserved : ((generate large.request).result
      { generator := g, plan := large.plan }).1.toOption.isSome = true := by decide +kernel
  have hafter : (match g.serve [referenceJob 32 8 2 1455] with
      | .ok (_, last) =>
        match (generate large.request).result { generator := last, plan := large.plan } with
        | (.error (.error (.scratch _)), _) => true
        | _ => false
      | .error _ => false) = true := by
    decide +kernel
  rcases hr : (generate large.request).result { generator := g, plan := large.plan } with ⟨_ | r, u⟩
  · rw [hr] at hserved
    cases hserved
  · refine ⟨⟨r, u, rfl⟩, ?_, ?_⟩
    · rintro ⟨cause, v, hrefused⟩
      rw [hr] at hrefused
      cases hrefused
    · cases hserve : g.serve [referenceJob 32 8 2 1455] with
      | error x =>
        rw [hserve] at hafter
        cases hafter
      | ok result =>
        rw [hserve] at hafter
        refine ⟨result.1, result.2, rfl, ?_⟩
        unfold Refuses
        revert hafter
        dsimp only
        split
        · rename_i cause v hrefused
          exact fun _ => ⟨cause, v, hrefused⟩
        · exact nofun

end Generator

end SplitRadix

import SplitRadix.Proofs.Pieces
import SplitRadix.Proofs.Serving

/-!
# How far the counters of a session have got

The counters of a session are words, and a generation whose outcome does not fit them ends in a
fault. A routine of the x86-64 target adds at most 2^31 to any of them, so that this cannot happen in
the first 2^32 generations.

* `Attempt.length_le`: how long a routine is.
* `Attempt.chain_counts`: how many calls its chain makes, and how many changes between them.
* `Countable`, `Attempt.countable`: what a generation adds.
* `Within`, `Served`: how far the counters of a session can have got.
* `Overruns`: the outcome of a generation does not fit the counters.
* `Outcome.failed`: a generation fails as its attempt does, unless it overruns the counters.
* `Overruns.not_within`: none of the first 2^32 generations does.
* `Outcome.served`: a generation wears its session by one.
-/

namespace SplitRadix.Scratch

/-- A routine and a chain that add at most 2^31 to any counter. -/
structure Countable (r : Routine) (chain : CallChain.Summary) : Prop where
  length : r.length ≤ 2 ^ 31
  callSites : chain.callSites ≤ 2 ^ 31
  updates : chain.updates ≤ 2 ^ 31
  elided : chain.elided ≤ 2 ^ 31

namespace Statistics

variable {s : Statistics} {n : Nat}

/-- The counters are as large at most as after `n` generations. -/
structure Within (n : Nat) (s : Statistics) : Prop where
  routines : s.routines ≤ n
  failures : s.failures ≤ n
  codeSize : s.codeSize ≤ 2 ^ 31 * n
  callSites : s.callSites ≤ 2 ^ 31 * n
  updates : s.updates ≤ 2 ^ 31 * n
  elided : s.elided ≤ 2 ^ 31 * n

theorem Within.succ (h : s.Within n) : s.Within (n + 1) := by
  obtain ⟨_, _, _, _, _, _⟩ := h
  constructor <;> omega

theorem Within.withFailure (h : s.Within n) : s.withFailure.Within (n + 1) := by
  have hnext := h.succ
  exact { hnext with failures := Nat.succ_le_succ h.failures }

theorem Within.withRoutine (h : s.Within n) {r : Routine} {chain : CallChain.Summary}
    (hr : Countable r chain) (size : Nat) :
    ((s.withRoutine size r.length).withChain chain).Within (n + 1) where
  routines := Nat.succ_le_succ h.routines
  failures := Nat.le_succ_of_le h.failures
  codeSize := Nat.add_le_add h.codeSize hr.length
  callSites := Nat.add_le_add h.callSites hr.callSites
  updates := Nat.add_le_add h.updates hr.updates
  elided := Nat.add_le_add h.elided hr.elided

theorem Within.inRange (h : s.Within n) (hn : n ≤ 2 ^ 32) : s.InRange := by
  obtain ⟨_, _, _, _, _, _⟩ := h
  constructor <;> omega

theorem within_start : (Session.start none).statistics.Within 0 := by
  constructor <;> exact Nat.le_refl 0

end Statistics

/-- A session without a limit that has served at most `n` generations. -/
structure Session.Served (n : Nat) (s : Session) : Prop where
  limit : s.arena.limit = none
  statistics : s.statistics.Within n

end SplitRadix.Scratch

namespace SplitRadix.Generator

open Target Scratch Routine

/-- An attempt does not change the limit of the session. -/
theorem Attempt.limit {σ : Type} {g t : Generation σ} {request : Request}
    {result : Except (Failure GenerateError) (Routine × CallChain.Summary)}
    (h : Attempt g request result t) :
    t.generator.session.arena.limit = g.generator.session.arena.limit := by
  have hdecompose := Session.decompose_limit request.size request.leaf g.generator.session
  cases h with
  | refused _ => rfl
  | noScratch _ hnodes _ => exact hdecompose.of_error hnodes
  | noBound hp _ => exact hdecompose.of_ok hp.stored
  | tooSmall hp _ _ => exact hdecompose.of_ok hp.stored
  | noSchedule hp _ => exact hdecompose.of_ok hp.stored
  | written hp _ _ _ _ => exact hdecompose.of_ok hp.stored

theorem Attempt.served {σ : Type} {g t : Generation σ} {request : Request} {n : Nat}
    {result : Except (Failure GenerateError) (Routine × CallChain.Summary)}
    (h : Attempt g request result t) (hserved : g.generator.session.Served n) :
    t.generator.session.Served n := by
  refine ⟨h.limit.trans hserved.limit, ?_⟩
  rw [h.statistics]
  exact hserved.statistics

/-- Only a supported transform is written. -/
theorem Attempt.supported {σ : Type} {g t : Generation σ} {request : Request} {r : Routine}
    {chain : CallChain.Summary} (h : Attempt g request (.ok (r, chain)) t) :
    Transform.isSupported request.size request.leaf = .ok true := by
  cases h with
  | written hp _ _ _ _ => exact hp.supported

/-- The chain of a routine calls once for each node of the transform, and decides three times before
each call, except before the first, where it decides twice. -/
theorem Attempt.chain_counts {σ : Type} {g t : Generation σ} {request : Request} {r : Routine}
    {chain : CallChain.Summary} (hlib : g.generator.backend.kernels.WellFormed)
    (h : Attempt g request (.ok (r, chain)) t) :
    chain.callSites = Decomposition.count request.size request.leaf ∧
      chain.updates + chain.elided + 1 = 3 * Decomposition.count request.size request.leaf := by
  have hpositive := Decomposition.count_pos (Transform.lt_of_isSupported h.supported)
  cases h with
  | @written nodes _ _ _ _ _ _ hp _ _ _ hwrite =>
    have hlarge : ∀ node ∈ CallChain.beforeSentinel nodes.toList,
        g.plan.parameters.leaf < node.size := by
      intro node hnode
      rw [hp.visited] at hnode
      obtain ⟨-, -, hleaf, -⟩ := validate_eq_ok.1 hp.valid
      rw [hleaf]
      exact (Decomposition.mem_postOrder hnode).1
    obtain ⟨-, -, -, hchain, -, -, -⟩ := written_of_emit hlib hwrite
    obtain ⟨hcalls, hchanges⟩ := CallChain.script_counts hlarge hchain
    rw [hp.length_visited] at hcalls hchanges
    exact ⟨hcalls, by omega⟩

/-- The counters of the session with the outcome of the request do not fit their words. -/
inductive Overruns {σ : Type} (g : Generation σ) (request : Request) : Prop where
  | routine {r : Routine} {chain : CallChain.Summary} {t : Generation σ}
    (h : Attempt g request (.ok (r, chain)) t)
    (hfull : ¬ ((g.generator.session.statistics.withRoutine request.size r.length).withChain
      chain).InRange)
  | failure {cause : GenerateError} {t : Generation σ}
    (h : Attempt g request (.error (.error cause)) t)
    (hfull : ¬ g.generator.session.statistics.withFailure.InRange)

/-- A generation that fails does so as its attempt did, or its outcome cannot be counted. -/
theorem Outcome.failed {σ : Type} {g u : Generation σ} {request : Request}
    {f : Failure GenerateError} (h : Outcome g request (.error f) u) :
    (∃ t, Attempt g request (.error f) t ∧ u.plan = t.plan) ∨ Overruns g request := by
  cases h with
  | error hattempt hplan _ _ => exact .inl ⟨_, hattempt, hplan⟩
  | fault hattempt => exact .inl ⟨_, hattempt, rfl⟩
  | uncounted hattempt hfull => exact .inr (.routine hattempt (hattempt.statistics ▸ hfull))
  | uncountedError hattempt hfull => exact .inr (.failure hattempt (hattempt.statistics ▸ hfull))

variable {g t u : Generation Unit} {request : Request} {n : Nat} {r : Routine}
  {chain : CallChain.Summary}

/-- A routine is not longer than its bound, and the bound fits the region. -/
theorem Attempt.length_le (hbackend : g.generator.backend = Machine.backend)
    (h : Attempt g request (.ok (r, chain)) t) :
    r.length ≤ capacity Machine.backend (Decomposition.count request.size request.leaf) ∧
      capacity Machine.backend (Decomposition.count request.size request.leaf) ≤
        g.plan.region.length := by
  cases h with
  | written hp hbound hfits hschedule hwrite =>
    have hlengths : g.generator.backend.KeepsLengths := hbackend ▸ Machine.keepsLengths
    have hlib : g.generator.backend.kernels.WellFormed := by
      rw [hbackend]
      exact Kernel.Library.wellFormed_of_validate Machine.kernels_validate
    have hlength := (hp.emit_ensures hlengths hlib hbound hfits hschedule _).of_ok hwrite
    rw [hbackend, capacityBound_machine hp.supported] at hbound
    cases hbound
    exact ⟨hlength, hfits⟩

/-- What a generation for the x86-64 target adds to the counters. -/
theorem Attempt.countable (hbackend : g.generator.backend = Machine.backend)
    (h : Attempt g request (.ok (r, chain)) t) : Countable r chain := by
  have hlength := (h.length_le hbackend).1
  have hlib : g.generator.backend.kernels.WellFormed := by
    rw [hbackend]
    exact Kernel.Library.wellFormed_of_validate Machine.kernels_validate
  obtain ⟨hcalls, hchanges⟩ := h.chain_counts hlib
  have hcount := count_lt_of_isSupported h.supported
  have hreach := capacity_machine_lt hcount
  exact ⟨Nat.le_trans hlength (by omega), by omega, by omega, by omega⟩

/-- The outcome of a generation fits counters that can be those of fewer than 2^32 generations. -/
theorem Overruns.not_within (hbackend : g.generator.backend = Machine.backend)
    (h : Overruns g request) (hn : n < 2 ^ 32) : ¬ g.generator.session.statistics.Within n := by
  intro hwithin
  cases h with
  | routine hattempt hfull =>
    exact hfull ((hwithin.withRoutine (hattempt.countable hbackend) request.size).inRange hn)
  | failure _ hfull => exact hfull (hwithin.withFailure.inRange hn)

/-- Each generation wears the session by one. -/
theorem Outcome.served (hbackend : g.generator.backend = Machine.backend)
    (hserved : g.generator.session.Served n) (hn : n < 2 ^ 32)
    {result : Except (Failure GenerateError) Routine} (h : Outcome g request result u) :
    u.generator.session.Served (n + 1) := by
  cases h with
  | routine hattempt _ _ hsession =>
    obtain ⟨hlimit, hstatistics⟩ := hattempt.served hserved
    rw [hsession]
    refine ⟨(Arena.limit_reset _).trans hlimit, ?_⟩
    exact hstatistics.withRoutine (hattempt.countable hbackend) request.size
  | error hattempt _ _ hsession =>
    obtain ⟨hlimit, hstatistics⟩ := hattempt.served hserved
    rw [hsession]
    exact ⟨(Arena.limit_reset _).trans hlimit, hstatistics.withFailure⟩
  | fault hattempt =>
    obtain ⟨hlimit, hstatistics⟩ := hattempt.served hserved
    exact ⟨hlimit, hstatistics.succ⟩
  | uncounted hattempt hfull =>
    have hoverruns : Overruns g request := .routine hattempt (hattempt.statistics ▸ hfull)
    exact absurd hserved.statistics (hoverruns.not_within hbackend hn)
  | uncountedError hattempt hfull =>
    have hoverruns : Overruns g request := .failure hattempt (hattempt.statistics ▸ hfull)
    exact absurd hserved.statistics (hoverruns.not_within hbackend hn)

end SplitRadix.Generator

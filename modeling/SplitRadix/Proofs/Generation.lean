import SplitRadix.Proofs.CallChain
import SplitRadix.Proofs.Filling
import SplitRadix.Routine.Generator

/-!
# The course of a generation

A generation checks its request, takes scratch memory, compares the region with the bound on the
routine, and only then writes; afterwards its outcome is counted.

* `validate_eq_ok`: when a request passes the check.
* `Prepared.displacement_ne_none`: a table that was checked has an entry for every node.
* `Attempt`, `attempt_ensures`: the six ways an attempt can end.
* `generate_ensures`: a generation ends as its attempt did, unless a counter overflows.
-/

namespace SplitRadix

open Target Scratch
open Transform (Parameters Plan)

variable {σ α : Type}

namespace Scratch.Statistics

/-- The counters with one more routine, of `length` bytes for a transform of `size`. -/
def withRoutine (s : Statistics) (size length : Nat) : Statistics :=
  { s with
    routines := s.routines + 1
    codeSize := s.codeSize + length
    largestRoutine := if s.largestRoutine < length then length else s.largestRoutine
    largestTransform := if s.largestRoutine < length then size else s.largestTransform }

/-- The counters with the calls and updates of one more chain. -/
def withChain (s : Statistics) (chain : CallChain.Summary) : Statistics :=
  { s with
    callSites := s.callSites + chain.callSites
    updates := s.updates + chain.updates
    elided := s.elided + chain.elided }

/-- The counters with one more failure. -/
def withFailure (s : Statistics) : Statistics := { s with failures := s.failures + 1 }

/-- Whether every counter fits its word. -/
structure InRange (s : Statistics) : Prop where
  routines : s.routines < 2 ^ 64
  failures : s.failures < 2 ^ 64
  codeSize : s.codeSize < 2 ^ 64
  callSites : s.callSites < 2 ^ 64
  updates : s.updates < 2 ^ 64
  elided : s.elided < 2 ^ 64

/-- The counters only grow. -/
theorem InRange.of_withChain {s : Statistics} {chain : CallChain.Summary}
    (h : (s.withChain chain).InRange) : s.InRange where
  routines := h.routines
  failures := h.failures
  codeSize := h.codeSize
  callSites := Nat.lt_of_le_of_lt (Nat.le_add_right _ _) h.callSites
  updates := Nat.lt_of_le_of_lt (Nat.le_add_right _ _) h.updates
  elided := Nat.lt_of_le_of_lt (Nat.le_add_right _ _) h.elided

theorem recordRoutine_ensures (s : Statistics) (size length : Nat) :
    (recordRoutine size length).Ensures s (fun _ t => t = s.withRoutine size length)
      fun _ _ => ¬ (s.withRoutine size length).InRange := by
  unfold recordRoutine
  simp only [Action.ensures_bind, Action.ensures_get, Action.ensures_liftFault,
    Action.ensures_modify]
  refine ⟨fun routines hr => ⟨fun codeSize hc => ?_, fun x hx h => ?_⟩, fun x hx h => ?_⟩
  · obtain ⟨rfl, -⟩ := Word.add_eq_ok.1 hr
    obtain ⟨rfl, -⟩ := Word.add_eq_ok.1 hc
    unfold withRoutine
    split <;> rfl
  · exact absurd h.codeSize (Nat.not_lt.2 (Word.le_of_add_eq_error hx))
  · exact absurd h.routines (Nat.not_lt.2 (Word.le_of_add_eq_error hx))

theorem recordChain_ensures (s : Statistics) (chain : CallChain.Summary) :
    (recordChain chain.callSites chain.updates chain.elided).Ensures s
      (fun _ t => t = s.withChain chain) fun _ _ => ¬ (s.withChain chain).InRange := by
  unfold recordChain
  simp only [Action.ensures_bind, Action.ensures_get, Action.ensures_liftFault,
    Action.ensures_modify]
  refine ⟨fun calls hc => ⟨fun updates hu => ⟨fun elided he => ?_, fun x hx h => ?_⟩,
    fun x hx h => ?_⟩, fun x hx h => ?_⟩
  · obtain ⟨rfl, -⟩ := Word.add_eq_ok.1 hc
    obtain ⟨rfl, -⟩ := Word.add_eq_ok.1 hu
    obtain ⟨rfl, -⟩ := Word.add_eq_ok.1 he
    rfl
  · exact absurd h.elided (Nat.not_lt.2 (Word.le_of_add_eq_error hx))
  · exact absurd h.updates (Nat.not_lt.2 (Word.le_of_add_eq_error hx))
  · exact absurd h.callSites (Nat.not_lt.2 (Word.le_of_add_eq_error hx))

theorem recordFailure_ensures (s : Statistics) :
    recordFailure.Ensures s (fun _ t => t = s.withFailure) fun _ _ => ¬ s.withFailure.InRange := by
  unfold recordFailure
  simp only [Action.ensures_bind, Action.ensures_get, Action.ensures_liftFault]
  refine ⟨fun n hn => ?_, fun x hx h => ?_⟩
  · obtain ⟨rfl, -⟩ := Word.add_eq_ok.1 hn
    exact rfl
  · exact absurd h.failures (Nat.not_lt.2 (Word.le_of_add_eq_error hx))

end Scratch.Statistics

namespace Generation

/-- The generation with another session. -/
def withSession (g : Generation σ) (session : Session) : Generation σ :=
  { g with generator := { g.generator with session } }

/-- The generation with one more event. -/
def noting (g : Generation σ) (event : Event) : Generation σ :=
  { g with events := g.events.push event }

/-- The generation after writing to its region. -/
def wrote (g : Generation σ) (e : Emission σ) : Generation σ :=
  { g with
    generator := { g.generator with own := e.own }
    plan := { g.plan with region := e.buffer.overlay g.plan.region }
    events := e.events }

/-- Writing from the start of the region. -/
def emission (g : Generation σ) : Emission σ :=
  { buffer := .start g.plan.region, own := g.generator.own, events := g.events }

end Generation

namespace Generator

variable {g : Generation σ} {request : Request}

/-! ## The check of a request -/

theorem validate_eq_ok {params : Parameters} : validate params request = .ok () ↔
    Transform.isSupported request.size request.leaf = .ok true ∧ params.size = request.size ∧
      params.leaf = request.leaf ∧ params.checkTable = .ok () := by
  have other : (params.size ≠ request.size ∨ params.leaf ≠ request.leaf) ↔
      ¬ (params.size = request.size ∧ params.leaf = request.leaf) := by omega
  have checked : ∀ x : Except (Failure Transform.ParameterError) Unit,
      x.mapError (Failure.map fun cause => GenerateError.planMismatch (.table cause)) = .ok () ↔
        x = .ok () := fun x => by
    cases x with
    | ok _ => exact ⟨fun _ => rfl, fun _ => rfl⟩
    | error _ => exact ⟨nofun, nofun⟩
  unfold validate
  dsimp only
  rw [exceptBind_eq_ok]
  constructor
  · rintro ⟨supported, hs, h⟩
    cases supported with
    | false => cases h
    | true =>
      by_cases hsame : params.size = request.size ∧ params.leaf = request.leaf
      · rw [if_neg (by decide), if_neg (fun h => other.1 h hsame), checked] at h
        exact ⟨lift_eq_ok.1 hs, hsame.1, hsame.2, h⟩
      · rw [if_neg (by decide), if_pos (other.2 hsame)] at h
        cases h
  · rintro ⟨hs, hsize, hleaf, htable⟩
    refine ⟨true, lift_eq_ok.2 hs, ?_⟩
    rw [if_neg (by decide), if_neg (fun h => other.1 h ⟨hsize, hleaf⟩), checked]
    exact htable

/-- A refused request has a wrong size or a plan for something else. -/
theorem validate_eq_error {params : Parameters} {f : Failure GenerateError}
    (h : validate params request = .error f) :
    (∃ x, f = .fault x) ∨ f = .error (.invalidSize request.size request.leaf) ∨
      ∃ reason, f = .error (.planMismatch reason) ∧ ∀ n, reason ≠ .noTableEntry n := by
  unfold validate at h
  dsimp only at h
  cases hs : Transform.isSupported request.size request.leaf with
  | error x =>
    rw [hs] at h
    cases h
    exact .inl ⟨x, rfl⟩
  | ok supported =>
    rw [hs] at h
    cases supported with
    | false =>
      cases h
      exact .inr (.inl rfl)
    | true =>
      replace h : (if params.size ≠ request.size ∨ params.leaf ≠ request.leaf then _ else _) =
        Except.error f := h
      split at h
      · cases h
        exact .inr (.inr ⟨_, rfl, nofun⟩)
      · cases ht : params.checkTable with
        | ok _ => rw [ht] at h; cases h
        | error c =>
          rw [ht] at h
          cases c with
          | error cause => cases h; exact .inr (.inr ⟨_, rfl, nofun⟩)
          | fault x => cases h; exact .inl ⟨x, rfl⟩

/-! ## Parts of a generation -/

theorem ensures_onSession {ε : Type} {kind : Failure ε → Failure GenerateError}
    {act : Action Session (Failure ε) α} {ok : α → Generation σ → Prop}
    {fail : Failure GenerateError → Generation σ → Prop} :
    (onSession kind act).Ensures g ok fail ↔
      act.Ensures g.generator.session (fun a s => ok a (g.withSession s))
        fun f s => fail (kind f) (g.withSession s) := by
  have hresult : (onSession kind act : Generate σ α).result g =
      ((act.result g.generator.session).1.mapError kind,
        g.withSession (act.result g.generator.session).2) := rfl
  unfold Action.Ensures
  rw [hresult]
  rcases act.result g.generator.session with ⟨_ | _, _⟩ <;> rfl

theorem ensures_onRegion {act : Emit σ α} {ok : α → Generation σ → Prop}
    {fail : Failure GenerateError → Generation σ → Prop} :
    (onRegion act).Ensures g ok fail ↔
      act.Ensures g.emission (fun a e => ok a (g.wrote e)) fun f e => fail f (g.wrote e) := by
  have hresult : (onRegion act : Generate σ α).result g =
      ((act.result g.emission).1, g.wrote (act.result g.emission).2) := rfl
  unfold Action.Ensures
  rw [hresult]
  rcases act.result g.emission with ⟨_ | _, _⟩ <;> rfl

theorem ensures_note {event : Event} {ok : Unit → Generation σ → Prop}
    {fail : Failure GenerateError → Generation σ → Prop} :
    (note event).Ensures g ok fail ↔ ok () (g.noting event) :=
  Iff.rfl

/-! ## Attempts -/

/-- The request passed its check and its nodes are stored. -/
structure Prepared (g : Generation σ) (request : Request) (nodes : Array Node) (s : Session) :
    Prop where
  valid : validate g.plan.parameters request = .ok ()
  stored : (Session.decompose request.size request.leaf).result g.generator.session = (.ok nodes, s)

theorem Prepared.supported {nodes : Array Node} {s : Session} (hp : Prepared g request nodes s) :
    Transform.isSupported request.size request.leaf = .ok true :=
  (validate_eq_ok.1 hp.valid).1

/-- The nodes are those of the transform, and storing them left the statistics alone. -/
theorem Prepared.nodes_eq {nodes : Array Node} {s : Session} (hp : Prepared g request nodes s) :
    nodes.toList = Decomposition.postOrder request.leaf request.size 0 ++ [Node.sentinel] ∧
      s.statistics = g.generator.session.statistics := by
  have h3 := Transform.three_mul_lt_of_isSupported hp.supported
  exact (Session.decompose_ensures request.leaf h3 g.generator.session).of_ok hp.stored

/-- The chain visits all nodes of the transform. -/
theorem Prepared.visited {nodes : Array Node} {s : Session} (hp : Prepared g request nodes s) :
    CallChain.beforeSentinel nodes.toList =
      Decomposition.postOrder request.leaf request.size 0 := by
  rw [hp.nodes_eq.1, CallChain.beforeSentinel_postOrder]

theorem Prepared.length_visited {nodes : Array Node} {s : Session}
    (hp : Prepared g request nodes s) : (CallChain.beforeSentinel nodes.toList).length =
      Decomposition.count request.size request.leaf := by
  rw [hp.visited, Decomposition.length_postOrder]

/-- A table that was found long enough has an entry for every node. -/
theorem displacement_ne_none {params : Parameters} {a b : Nat} (hsize : params.size = 2 ^ a)
    (hleaf : params.leaf = 2 ^ b) (hba : b ≤ a) (htable : params.checkTable = .ok ()) {node : Node}
    (hnode : node ∈ Decomposition.postOrder (2 ^ b) (2 ^ a) 0) :
    params.displacement node.size ≠ .ok none := by
  have hlevels := Parameters.le_length_of_checkTable hsize hleaf hba htable
  obtain ⟨j, hj, hlevel⟩ := Decomposition.exists_level hnode
  have hentry : j < params.table.length := by omega
  rw [hlevel, Parameters.displacement_two_pow hleaf, List.getElem?_eq_getElem hentry]
  dsimp only
  cases Word.mul 8 params.table[j] with
  | ok lut => exact nofun
  | error x => exact nofun

/-- Every node of a prepared generation has an entry in the table. -/
theorem Prepared.displacement_ne_none {nodes : Array Node} {s : Scratch.Session}
    (hp : Prepared g request nodes s) :
    ∀ node ∈ CallChain.beforeSentinel nodes.toList,
      g.plan.parameters.displacement node.size ≠ .ok none := by
  obtain ⟨hsupported, hsize, hleaf, htable⟩ := validate_eq_ok.1 hp.valid
  obtain ⟨a, b, ha, hb, -, hba, -⟩ := Transform.isSupported_iff.1 hsupported
  intro node hnode
  rw [hp.visited, ha, hb] at hnode
  exact Generator.displacement_ne_none (hsize.trans ha) (hleaf.trans hb) (by omega) htable hnode

/-- The ways an attempt can end. -/
inductive Attempt (g : Generation σ) (request : Request) :
    Except (Failure GenerateError) (Routine × CallChain.Summary) → Generation σ → Prop where
  | refused {f : Failure GenerateError} (hvalid : validate g.plan.parameters request = .error f) :
    Attempt g request (.error f) g
  | noScratch {f : Failure GenerateError} {c : Failure ScratchError} {s : Session}
    (hvalid : validate g.plan.parameters request = .ok ())
    (hnodes : (Session.decompose request.size request.leaf).result g.generator.session =
      (.error c, s)) (hf : f = c.map .scratch) :
    Attempt g request (.error f) (g.withSession s)
  | noBound {nodes : Array Node} {s : Session} {x : Fault} (hp : Prepared g request nodes s)
    (hbound : Routine.capacityBound g.generator.backend request.size request.leaf = .error x) :
    Attempt g request (.error (.fault x)) (g.withSession s)
  | tooSmall {nodes : Array Node} {s : Session} {bound : Nat} (hp : Prepared g request nodes s)
    (hbound : Routine.capacityBound g.generator.backend request.size request.leaf = .ok bound)
    (hsmall : g.plan.region.length < bound) :
    Attempt g request (.error (.error (.regionTooSmall bound g.plan.region.length)))
      ((g.withSession s).noting (.regionTooSmall g.plan.region.length request.size bound))
  | noSchedule {nodes : Array Node} {s : Session} {x : Fault} (hp : Prepared g request nodes s)
    (hschedule : Leaf.Schedule.make request.size g.plan.parameters.iterations = .error x) :
    Attempt g request (.error (.fault x)) (g.withSession s)
  | written {nodes : Array Node} {s : Session} {bound : Nat} {schedule : Leaf.Schedule}
    {result : Except (Failure GenerateError) (Routine × CallChain.Summary)}
    {e : Emission σ} {event : Event} (hp : Prepared g request nodes s)
    (hbound : Routine.capacityBound g.generator.backend request.size request.leaf = .ok bound)
    (hfits : bound ≤ g.plan.region.length)
    (hschedule : Leaf.Schedule.make request.size g.plan.parameters.iterations = .ok schedule)
    (hwrite : (Routine.emit g.generator.backend g.plan.parameters request.direction schedule
      nodes.toList).result ((g.withSession s).noting event).emission = (result, e)) :
    Attempt g request result (((g.withSession s).noting event).wrote e)

theorem attempt_ensures :
    (attempt request).Ensures g (fun r => Attempt g request (.ok r))
      fun f => Attempt g request (.error f) := by
  unfold attempt
  simp only [Action.ensures_bind, Action.ensures_get, Action.ensures_ofExcept, ensures_onSession,
    Action.ensures_lift]
  refine ⟨fun _ hvalid => Action.ensures_iff.2 ⟨fun nodes s hnodes => ?_, fun f s hnodes => ?_⟩,
    fun f hf => .refused hf⟩
  · have hp : Prepared g request nodes s := ⟨hvalid, hnodes⟩
    refine ⟨fun bound hbound => ?_, fun x hx => .noBound hp hx⟩
    by_cases hsmall : g.plan.region.length < bound
    · rw [if_pos (by exact hsmall)]
      exact .tooSmall hp hbound hsmall
    · rw [if_neg (by exact hsmall)]
      simp only [Action.ensures_bind, Action.ensures_lift, ensures_note, ensures_onRegion]
      refine ⟨fun schedule hschedule => ?_, fun x hx => .noSchedule hp hx⟩
      refine Action.ensures_iff.2 ⟨fun r e hr => ?_, fun f e hr => ?_⟩
      · exact .written hp hbound (Nat.not_lt.1 hsmall) hschedule hr
      · exact .written hp hbound (Nat.not_lt.1 hsmall) hschedule hr
  · exact .noScratch hvalid hnodes rfl

theorem attempt_of_result {result : Except (Failure GenerateError) (Routine × CallChain.Summary)}
    {t : Generation σ} (hr : (attempt request).result g = (result, t)) :
    Attempt g request result t := by
  cases result with
  | ok _ => exact attempt_ensures.of_ok hr
  | error _ => exact attempt_ensures.of_error hr

/-- An attempt leaves the statistics alone. -/
theorem Attempt.statistics {result : Except (Failure GenerateError) (Routine × CallChain.Summary)}
    {t : Generation σ} (h : Attempt g request result t) :
    t.generator.session.statistics = g.generator.session.statistics := by
  cases h with
  | refused _ => rfl
  | noScratch hvalid hnodes _ =>
    have h3 := Transform.three_mul_lt_of_isSupported (validate_eq_ok.1 hvalid).1
    exact (Session.decompose_ensures request.leaf h3 g.generator.session).of_error hnodes
  | noBound hp _ => exact hp.nodes_eq.2
  | tooSmall hp _ _ => exact hp.nodes_eq.2
  | noSchedule hp _ => exact hp.nodes_eq.2
  | written hp _ _ _ _ => exact hp.nodes_eq.2

/-! ## Counting the outcome -/

theorem ensures_record {update : Action Statistics Fault Unit} {ok : Unit → Generation σ → Prop}
    {fail : Failure GenerateError → Generation σ → Prop} :
    (record update).Ensures g ok fail ↔
      update.Ensures g.generator.session.statistics
        (fun _ s => ok () (g.withSession { g.generator.session with statistics := s }))
        fun x s => fail (.fault x) (g.withSession { g.generator.session with statistics := s }) := by
  have hresult : (record update : Generate σ Unit).result g =
      (liftFault (update.result g.generator.session.statistics).1,
        g.withSession { g.generator.session with
          statistics := (update.result g.generator.session.statistics).2 }) := rfl
  unfold Action.Ensures
  rw [hresult]
  rcases update.result g.generator.session.statistics with ⟨_ | _, _⟩ <;> rfl

/-- An error is reported if it can be counted. -/
theorem conclude_error (request : Request) (cause : GenerateError) (t : Generation σ) :
    (conclude request (.error (.error cause))).Ensures t (fun _ _ => False) fun f _ =>
      f = if t.generator.session.statistics.failures + 1 < 2 ^ 64 then .error cause
        else .fault .addOverflow := by
  unfold conclude release
  simp only [Action.ensures_bind, Action.ensures_modify, ensures_record]
  unfold Statistics.recordFailure
  simp only [Action.ensures_bind, Action.ensures_get, Action.ensures_liftFault]
  refine ⟨fun n hn => ?_, fun x hx => ?_⟩
  · exact (if_pos (Word.add_eq_ok.1 hn).2).symm
  · obtain ⟨rfl, hfull⟩ := Word.fit_eq_error.1 hx
    exact (if_neg hfull).symm

/-- The ways a generation can end: as its attempt did, with the outcome counted, or with a counter
that overflowed. -/
inductive Outcome (g : Generation σ) (request : Request) :
    Except (Failure GenerateError) Routine → Generation σ → Prop where
  | routine {r : Routine} {chain : CallChain.Summary} {t u : Generation σ}
    (h : Attempt g request (.ok (r, chain)) t) (hplan : u.plan = t.plan)
    (hown : u.generator.own = t.generator.own)
    (hsession : u.generator.session =
      { arena := t.generator.session.arena.reset
        statistics :=
          (t.generator.session.statistics.withRoutine request.size r.length).withChain chain }) :
    Outcome g request (.ok r) u
  | error {cause : GenerateError} {t u : Generation σ}
    (h : Attempt g request (.error (.error cause)) t) (hplan : u.plan = t.plan)
    (hown : u.generator.own = t.generator.own)
    (hsession : u.generator.session =
      { arena := t.generator.session.arena.reset
        statistics := t.generator.session.statistics.withFailure }) :
    Outcome g request (.error (.error cause)) u
  | fault {x : Fault} {t : Generation σ} (h : Attempt g request (.error (.fault x)) t) :
    Outcome g request (.error (.fault x)) t
  | uncounted {r : Routine} {chain : CallChain.Summary} {x : Fault} {t u : Generation σ}
    (h : Attempt g request (.ok (r, chain)) t)
    (hfull : ¬ ((t.generator.session.statistics.withRoutine request.size r.length).withChain
      chain).InRange) :
    Outcome g request (.error (.fault x)) u
  | uncountedError {cause : GenerateError} {x : Fault} {t u : Generation σ}
    (h : Attempt g request (.error (.error cause)) t)
    (hfull : ¬ t.generator.session.statistics.withFailure.InRange) :
    Outcome g request (.error (.fault x)) u

theorem concludeOk_ensures {r : Routine} {chain : CallChain.Summary} {t : Generation σ}
    (h : Attempt g request (.ok (r, chain)) t) :
    (conclude request (.ok (r, chain))).Ensures t (fun r => Outcome g request (.ok r))
      fun f => Outcome g request (.error f) := by
  unfold conclude release
  simp only [Action.ensures_bind, Action.ensures_modify, ensures_record]
  refine (Statistics.recordRoutine_ensures _ request.size r.length).mono ?_ ?_
  · rintro _ _ rfl
    refine (Statistics.recordChain_ensures _ chain).mono ?_ ?_
    · rintro _ _ rfl
      exact .routine h rfl rfl rfl
    · exact fun x _ hfull => .uncounted h hfull
  · exact fun x _ hfull => .uncounted h fun hrange => hfull hrange.of_withChain

theorem concludeError_ensures {cause : GenerateError} {t : Generation σ}
    (h : Attempt g request (.error (.error cause)) t) :
    (conclude request (.error (.error cause))).Ensures t (fun r => Outcome g request (.ok r))
      fun f => Outcome g request (.error f) := by
  unfold conclude release
  simp only [Action.ensures_bind, Action.ensures_modify, ensures_record]
  refine (Statistics.recordFailure_ensures _).mono ?_ ?_
  · rintro _ _ rfl
    exact .error h rfl rfl rfl
  · exact fun x _ hfull => .uncountedError h hfull

theorem generate_ensures :
    (generate request).Ensures g (fun r => Outcome g request (.ok r))
      fun f => Outcome g request (.error f) := by
  unfold Action.Ensures
  rw [result_generate]
  rcases hr : (attempt request).result g with ⟨(cause | x) | ⟨r, chain⟩, t⟩
  · exact concludeError_ensures (attempt_ensures.of_error hr)
  · exact .fault (attempt_ensures.of_error hr)
  · exact concludeOk_ensures (attempt_ensures.of_ok hr)

theorem outcome_of_result {result : Except (Failure GenerateError) Routine} {u : Generation σ}
    (hr : (generate request).result g = (result, u)) : Outcome g request result u := by
  cases result with
  | ok _ => exact generate_ensures.of_ok hr
  | error _ => exact generate_ensures.of_error hr

end Generator

end SplitRadix

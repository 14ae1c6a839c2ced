import SplitRadix.Proofs.Layout
import SplitRadix.Proofs.Wear

/-!
# The counters of a session tell its history

A generator serves one job after another, each with a plan of its own. Some jobs are answered with a
routine and some with an error. After any number of jobs the counters of the session are sums over
the answers so far, whatever target the generator is for.

* `serve`: the answers to a list of jobs.
* `Statistics.Tells`: the counters are the sums over a list of answers.
* `Outcome.tells`: one more answer is counted.
* `Backend.Advances`: a target that takes nothing back, so that no routine is empty.
* `counters_tell_history`: the counters of a session after any list of jobs.
-/

namespace SplitRadix

open Target Scratch
open Transform (Plan)

variable {σ α β : Type}

/-! ## Targets that take nothing back -/

namespace Target

/-- The operation leaves the cursor where it is or moves it on. -/
def Emit.Advances (act : Emit σ α) : Prop :=
  ∀ e, act.Ensures e (fun _ t => e.buffer.position ≤ t.buffer.position) fun _ _ => True

/-- Whatever a target is asked for, it takes nothing back of what was written. -/
structure Backend.Advances (backend : Backend σ) : Prop where
  emit : ∀ p, (backend.emit p).Advances
  align : ∀ bias, (backend.align bias).Advances

/-- A target that only appends takes nothing back. Both targets are such. -/
theorem Backend.OnlyAppends.advances {backend : Backend σ} (h : backend.OnlyAppends) :
    backend.Advances := by
  have hmoves : ∀ {α : Type} {act : Emit σ α}, act.Pushes → act.Advances := by
    intro α act hact e
    refine (hact e).mono (fun _ t ht => ?_) fun _ _ _ => trivial
    obtain ⟨bytes, ht⟩ := ht
    simp [ht]
  exact ⟨fun p => hmoves (h.emit p), fun bias => hmoves (h.align bias)⟩

/-- The recording target takes nothing back, however it is set. -/
theorem Recorder.advances (settings : Settings) : (backend settings).Advances :=
  (onlyAppends settings).advances

end Target

namespace Routine

variable {backend : Backend σ} {direction : Direction} {e t u : Emission σ}

theorem Aligned.advances (hadvances : backend.Advances) {boundary : Option Nat}
    (h : Aligned backend boundary e t) : e.buffer.position ≤ t.buffer.position := by
  cases h with
  | free h => exact Nat.le_of_eq (by rw [h.buffer])
  | padded hbefore h hafter =>
    rw [hafter.buffer, ← hbefore.buffer]
    exact (hadvances.align _ _).of_ok h

theorem Filled.advances (hadvances : backend.Advances) {content : Content}
    (h : Filled backend direction content e t) : e.buffer.position ≤ t.buffer.position := by
  cases h with
  | kernel _ _ _ => simp
  | primitive h => exact (hadvances.emit _ _).of_ok h

/-- The cursor moves on along a run. -/
theorem Writing.advances (hadvances : backend.Advances) {pieces : List Piece}
    {fragments : List Fragment} (h : Writing backend direction pieces e fragments u) :
    e.buffer.position ≤ u.buffer.position := by
  induction h with
  | done h => exact Nat.le_of_eq (by rw [h.buffer])
  | glue hbefore hglue _ ih =>
    rw [← hbefore.buffer]
    exact Nat.le_trans ((hadvances.emit _ _).of_ok hglue) ih
  | part haligned hfilled _ ih =>
    exact Nat.le_trans (haligned.advances hadvances) (Nat.le_trans (hfilled.advances hadvances) ih)

/-- A routine starts with the code of a base case. -/
theorem Written.length_pos (hadvances : backend.Advances)
    (hlib : backend.kernels.validate = .ok ()) {params : Transform.Parameters}
    {schedule : Leaf.Schedule} {nodes : List Node} {r : Routine × CallChain.Summary}
    (h : Written backend params direction schedule nodes e r u) : 0 < r.1.length := by
  cases h with
  | intro hbased _ _ _ hbody hexit _ =>
    have hrest := Nat.le_trans (hbody.advances hadvances) ((hadvances.emit _ _).of_ok hexit)
    have hx4 : 0 < backend.kernels.x4.length :=
      Kernel.Library.length_pos_of_validate hlib
        (by simp [Kernel.Library.templates, Kernel.Library.fixed])
    cases hbased with
    | part _ hfilled hx8 =>
      have hmore := hx8.advances hadvances
      cases hfilled with
      | kernel start _ hbytes =>
        have hlength := hbytes.length
        simp only [Code.Buffer.position_push] at hmore
        dsimp only
        omega

end Routine

namespace Generator

/-! ## Jobs and answers -/

/-- What a generator is to write, and where. -/
structure Job where
  plan : Plan
  request : Request

/-- What a job was answered with. -/
structure Answer where
  request : Request
  result : Except GenerateError Routine

/-- What a generation returns, if it returns. -/
def returned {ε : Type} : Except (Failure ε) α → Except Fault (Except ε α)
  | .ok a => .ok (.ok a)
  | .error (.error cause) => .ok (.error cause)
  | .error (.fault x) => .error x

/-- Serve one job after another. -/
def serve (g : Generator σ) : List Job → Except Fault (List Answer × Generator σ)
  | [] => .ok ([], g)
  | job :: jobs => do
    let (result, u) := (generate job.request).result { generator := g, plan := job.plan }
    let result ← returned result
    let (answers, last) ← u.generator.serve jobs
    return (⟨job.request, result⟩ :: answers, last)

/-- A routine and the request it answers. -/
abbrev Success := Request × Routine

/-- The routines among the answers. -/
def successes (answers : List Answer) : List Success :=
  answers.filterMap fun answer => answer.result.toOption.map fun r => (answer.request, r)

/-- The errors among the answers. -/
def errors (answers : List Answer) : List GenerateError :=
  answers.filterMap fun answer =>
    match answer.result with
    | .ok _ => none
    | .error cause => some cause

@[simp] theorem successes_concat_ok (answers : List Answer) (request : Request) (r : Routine) :
    successes (answers ++ [⟨request, .ok r⟩]) = successes answers ++ [(request, r)] := by
  simp [successes, Except.toOption]

@[simp] theorem successes_concat_error (answers : List Answer) (request : Request)
    (cause : GenerateError) : successes (answers ++ [⟨request, .error cause⟩]) =
      successes answers := by
  simp [successes, Except.toOption]

@[simp] theorem errors_concat_ok (answers : List Answer) (request : Request) (r : Routine) :
    errors (answers ++ [⟨request, .ok r⟩]) = errors answers := by
  simp [errors]

@[simp] theorem errors_concat_error (answers : List Answer) (request : Request)
    (cause : GenerateError) :
    errors (answers ++ [⟨request, .error cause⟩]) = errors answers ++ [cause] := by
  simp [errors]

/-- The earliest of the longest routines, given by its length and the size of its transform. Both
are zero if there is no routine. -/
inductive Longest : List Success → (length size : Nat) → Prop where
  | none : Longest [] 0 0
  | earliest (first : Success) {before after : List Success}
    (hbefore : ∀ s ∈ before, s.2.length < first.2.length)
    (hafter : ∀ s ∈ after, s.2.length ≤ first.2.length) :
    Longest (before ++ first :: after) first.2.length first.1.size

theorem Longest.le {list : List Success} {length size : Nat} (h : Longest list length size) :
    ∀ s ∈ list, s.2.length ≤ length := by
  cases h with
  | none => simp
  | earliest first hbefore hafter =>
    intro s hs
    rcases List.mem_append.1 hs with hs | hs
    · exact Nat.le_of_lt (hbefore s hs)
    · rcases List.mem_cons.1 hs with rfl | hs
      · exact Nat.le_refl _
      · exact hafter s hs

/-- A routine takes the place of the longest one only if it is longer. -/
theorem Longest.concat {list : List Success} {length size : Nat} (h : Longest list length size)
    {s : Success} (hs : 0 < s.2.length) :
    Longest (list ++ [s]) (if length < s.2.length then s.2.length else length)
      (if length < s.2.length then s.1.size else size) := by
  by_cases hlonger : length < s.2.length
  · rw [if_pos hlonger, if_pos hlonger]
    exact .earliest s (fun t ht => Nat.lt_of_le_of_lt (h.le t ht) hlonger) (by simp)
  · rw [if_neg hlonger, if_neg hlonger]
    cases h with
    | none => exact absurd hs hlonger
    | earliest first hbefore hafter =>
      rw [List.append_assoc, List.cons_append]
      refine .earliest first hbefore fun t ht => ?_
      rcases List.mem_append.1 ht with ht | ht
      · exact hafter t ht
      · rw [List.mem_singleton.1 ht]
        exact Nat.not_lt.1 hlonger

end Generator

/-! ## Sums over the answers -/

namespace Scratch.Statistics

open Generator

/-- The counters are the sums over the answers. -/
structure Tells (answers : List Answer) (s : Statistics) : Prop where
  routines : s.routines = (successes answers).length
  failures : s.failures = (errors answers).length
  codeSize : s.codeSize = (successes answers).foldl (fun sum a => sum + a.2.length) 0
  callSites : s.callSites =
    (successes answers).foldl (fun sum a => sum + Decomposition.count a.1.size a.1.leaf) 0
  changes : s.updates + s.elided + s.routines = 3 * s.callSites
  largestRoutine : s.largestRoutine = (successes answers).foldl (fun most a => max most a.2.length) 0

variable {answers : List Answer} {s : Statistics} {request : Request}

theorem tells_nil : Tells [] {} := by
  constructor <;> rfl

theorem Tells.withFailure (h : s.Tells answers) (cause : GenerateError) :
    s.withFailure.Tells (answers ++ [⟨request, .error cause⟩]) where
  routines := by simp [Statistics.withFailure, h.routines]
  failures := by simp [Statistics.withFailure, h.failures]
  codeSize := by simp [Statistics.withFailure, h.codeSize]
  callSites := by simp [Statistics.withFailure, h.callSites]
  changes := h.changes
  largestRoutine := by simp [Statistics.withFailure, h.largestRoutine]

theorem Tells.withRoutine (h : s.Tells answers) {r : Routine} {chain : CallChain.Summary}
    (hcalls : chain.callSites = Decomposition.count request.size request.leaf)
    (hchanges : chain.updates + chain.elided + 1 =
      3 * Decomposition.count request.size request.leaf) :
    ((s.withRoutine request.size r.length).withChain chain).Tells
      (answers ++ [⟨request, .ok r⟩]) where
  routines := by simp [Statistics.withRoutine, Statistics.withChain, h.routines]
  failures := by simp [Statistics.withRoutine, Statistics.withChain, h.failures]
  codeSize := by simp [Statistics.withRoutine, Statistics.withChain, h.codeSize]
  callSites := by simp [Statistics.withRoutine, Statistics.withChain, h.callSites, hcalls]
  changes := by
    have := h.changes
    simp only [Statistics.withRoutine, Statistics.withChain, hcalls]
    omega
  largestRoutine := by
    simp only [Statistics.withRoutine, Statistics.withChain, successes_concat_ok, List.foldl_append,
      List.foldl_cons, List.foldl_nil, ← h.largestRoutine]
    split <;> omega

end Scratch.Statistics

namespace Generator

variable {g : Generation σ} {request : Request}

/-! ## One more answer -/

/-- An attempt is made for the generator's target. -/
theorem Attempt.backend {t : Generation σ}
    {result : Except (Failure GenerateError) (Routine × CallChain.Summary)}
    (h : Attempt g request result t) : t.generator.backend = g.generator.backend := by
  cases h <;> rfl

theorem record_backend (update : Action Statistics Fault Unit) :
    (record update).Ensures g (fun _ u => u.generator.backend = g.generator.backend)
      fun _ u => u.generator.backend = g.generator.backend := by
  rw [ensures_record]
  exact Action.ensures_iff.2 ⟨fun _ _ _ => rfl, fun _ _ _ => rfl⟩

theorem conclude_backend (request : Request)
    (result : Except (Failure GenerateError) (Routine × CallChain.Summary)) (g : Generation σ) :
    (conclude request result).Ensures g (fun _ u => u.generator.backend = g.generator.backend)
      fun _ u => u.generator.backend = g.generator.backend := by
  cases result with
  | ok result =>
    unfold conclude release
    simp only [Action.ensures_bind, Action.ensures_modify]
    refine (record_backend _).mono (fun _ t ht => ?_) fun _ _ h => h
    exact (record_backend _).mono (fun _ _ hu => hu.trans ht) fun _ _ h => h.trans ht
  | error failure =>
    cases failure with
    | error cause =>
      unfold conclude release
      simp only [Action.ensures_bind, Action.ensures_modify]
      exact (record_backend _).mono (fun _ _ hu => hu) fun _ _ h => h
    | fault x => exact rfl

/-- A generation is for the generator's target. -/
theorem generate_backend (request : Request) (g : Generation σ) :
    ((generate request).result g).2.generator.backend = g.generator.backend := by
  rw [result_generate]
  rcases hr : (attempt request).result g with ⟨result, t⟩
  have ht : t.generator.backend = g.generator.backend := (attempt_of_result hr).backend
  have hconclude := conclude_backend request result t
  rw [← ht]
  rcases hu : (conclude request result).result t with ⟨_ | _, _⟩
  · exact hconclude.of_error hu
  · exact hconclude.of_ok hu

/-- One more answer is counted. -/
theorem Outcome.tells (hlib : g.generator.backend.kernels.WellFormed) {answers : List Answer}
    {answer : Except (Failure GenerateError) Routine} {result : Except GenerateError Routine}
    {u : Generation σ} (htells : g.generator.session.statistics.Tells answers)
    (h : Outcome g request answer u) (hresult : returned answer = .ok result) :
    u.generator.session.statistics.Tells (answers ++ [⟨request, result⟩]) := by
  cases h with
  | routine hattempt _ _ hsession =>
    cases hresult
    obtain ⟨hcalls, hchanges⟩ := hattempt.chain_counts hlib
    rw [hsession, hattempt.statistics]
    exact htells.withRoutine hcalls hchanges
  | error hattempt _ _ hsession =>
    cases hresult
    rw [hsession, hattempt.statistics]
    exact htells.withFailure _
  | fault _ => cases hresult
  | uncounted _ _ => cases hresult
  | uncountedError _ _ => cases hresult

/-- A target that takes nothing back writes no empty routine. -/
theorem Attempt.length_pos (hlib : g.generator.backend.kernels.validate = .ok ())
    (hadvances : g.generator.backend.Advances) {r : Routine} {chain : CallChain.Summary}
    {t : Generation σ} (h : Attempt g request (.ok (r, chain)) t) : 0 < r.length := by
  cases h with
  | written _ _ _ _ hwrite =>
    have hwritten := Routine.written_of_emit (Kernel.Library.wellFormed_of_validate hlib) hwrite
    exact hwritten.length_pos hadvances hlib

/-- One more answer can be the longest. -/
theorem Outcome.longest (hlib : g.generator.backend.kernels.validate = .ok ())
    (hadvances : g.generator.backend.Advances) {answers : List Answer}
    {answer : Except (Failure GenerateError) Routine} {result : Except GenerateError Routine}
    {u : Generation σ}
    (hlongest : Longest (successes answers) g.generator.session.statistics.largestRoutine
      g.generator.session.statistics.largestTransform)
    (h : Outcome g request answer u) (hresult : returned answer = .ok result) :
    Longest (successes (answers ++ [⟨request, result⟩]))
      u.generator.session.statistics.largestRoutine
      u.generator.session.statistics.largestTransform := by
  cases h with
  | @routine r _ _ _ hattempt _ _ hsession =>
    cases hresult
    rw [hsession, hattempt.statistics, successes_concat_ok]
    exact hlongest.concat (s := (request, r)) (hattempt.length_pos hlib hadvances)
  | error hattempt _ _ hsession =>
    cases hresult
    rw [hsession, hattempt.statistics, successes_concat_error]
    exact hlongest
  | fault _ => cases hresult
  | uncounted _ _ => cases hresult
  | uncountedError _ _ => cases hresult

/-! ## Any number of answers -/

/-- What each answer keeps, all answers keep. -/
theorem serve_induction (inv : List Answer → Generator σ → Prop)
    (hstep : ∀ past g plan request answer u result, inv past g →
      Outcome { generator := g, plan } request answer u → returned answer = .ok result →
      u.generator.backend = g.backend → inv (past ++ [⟨request, result⟩]) u.generator)
    (jobs : List Job) (past : List Answer) {answers : List Answer} {g last : Generator σ}
    (h : inv past g) (hserve : g.serve jobs = .ok (answers, last)) : inv (past ++ answers) last := by
  induction jobs generalizing past answers g with
  | nil =>
    cases hserve
    rwa [List.append_nil]
  | cons job jobs ih =>
    unfold serve at hserve
    have hbackend := generate_backend job.request { generator := g, plan := job.plan }
    rcases hr : (generate job.request).result { generator := g, plan := job.plan } with ⟨answer, u⟩
    rw [hr] at hserve hbackend
    obtain ⟨result, hresult, hserve⟩ := exceptBind_eq_ok.1 hserve
    obtain ⟨⟨rest, _⟩, hrest, hserve⟩ := exceptBind_eq_ok.1 hserve
    cases hserve
    have hnext := hstep past g job.plan job.request answer u result h (outcome_of_result hr) hresult
      hbackend
    have hlast := ih _ hnext hrest
    rwa [List.append_assoc] at hlast

theorem make_eq_ok {backend : Backend σ} {own : σ} {session : Session} {g : Generator σ}
    {event : Event} (h : make backend own session = .ok (g, event)) :
    backend.kernels.validate = .ok () ∧ g = { backend, own, session } := by
  unfold make at h
  split at h
  · rename_i hvalid
    cases h
    exact ⟨hvalid, rfl⟩
  · cases h

theorem make_of_validate {backend : Backend σ} (h : backend.kernels.validate = .ok ()) (own : σ)
    (session : Session) : make backend own session =
      .ok ({ backend, own, session }, .targetReady backend.name backend.kernels.maxLength) := by
  unfold make
  rw [h]
  rfl

/-- After any list of jobs that all return, the counters of a new session are the sums over the
answers, whatever the target. If the target takes nothing back, the longest routine is named by the
first transform that had it. -/
theorem counters_tell_history (backend : Backend σ) (own : σ) (arena : Arena) {g last : Generator σ}
    {event : Event} (hmake : make backend own { arena } = .ok (g, event)) {jobs : List Job}
    {answers : List Answer} (hserve : g.serve jobs = .ok (answers, last)) :
    last.session.statistics.Tells answers ∧
      (backend.Advances → Longest (successes answers) last.session.statistics.largestRoutine
        last.session.statistics.largestTransform) := by
  obtain ⟨hvalid, rfl⟩ := make_eq_ok hmake
  have hlib := Kernel.Library.wellFormed_of_validate hvalid
  constructor
  · refine (serve_induction (fun past g => g.backend = backend ∧ g.session.statistics.Tells past)
      ?_ jobs [] ⟨rfl, Statistics.tells_nil⟩ hserve).2
    intro past g plan request answer u result h houtcome hresult hsame
    obtain ⟨rfl, htells⟩ := h
    exact ⟨hsame, houtcome.tells hlib htells hresult⟩
  · intro hadvances
    have hstart : Longest (successes []) 0 0 := .none
    refine (serve_induction (fun past g => g.backend = backend ∧ Longest (successes past)
        g.session.statistics.largestRoutine g.session.statistics.largestTransform)
      ?_ jobs [] ⟨rfl, hstart⟩ hserve).2
    intro past g plan request answer u result h houtcome hresult hsame
    obtain ⟨rfl, hlongest⟩ := h
    exact ⟨hsame, houtcome.longest hvalid hadvances hlongest hresult⟩

/-- A session of five jobs: a routine, a size that is not supported, two routines of the same length
for transforms of 32 and of 64 elements, and one that the target refuses midway. -/
theorem counters_tell_history_of_refusal :
    let backend := Recorder.backend { refuse := some 66 }
    let job (size leaf levels : Nat) : Job :=
      { plan := { parameters := ⟨size, leaf, .ofLeaves (size / leaf),
                    Transform.referenceTable leaf levels⟩
                  region := .blank 4096 1024 }
        request := ⟨size, leaf, .inverse⟩ }
    let jobs := [job 32 8 2, job 24 8 2, job 32 4 3, job 64 8 3, job 64 8 3]
    ∃ g event answers last, make backend {} { arena := { limit := none } } = .ok (g, event) ∧
      g.serve jobs = .ok (answers, last) ∧ backend.Advances ∧
      last.session.statistics = ⟨3, 2, 1207, 9, 14, 10, 481, 32⟩ ∧
      last.session.statistics.Tells answers ∧
      Longest (successes answers) last.session.statistics.largestRoutine
        last.session.statistics.largestTransform := by
  intro backend job jobs
  have hvalid : backend.kernels.validate = .ok () := eq_ok_of_toOption (by decide +kernel)
  let g : Generator Recorder := { backend, own := {}, session := { arena := { limit := none } } }
  have hmake : make backend {} { arena := { limit := none } } =
      .ok (g, .targetReady backend.name backend.kernels.maxLength) := by
    unfold make
    rw [hvalid]
    rfl
  have hcounted : (g.serve jobs).toOption.map (fun p => p.2.session.statistics) =
      some ⟨3, 2, 1207, 9, 14, 10, 481, 32⟩ := by decide +kernel
  cases hserve : g.serve jobs with
  | error x =>
    rw [hserve] at hcounted
    cases hcounted
  | ok result =>
    rw [hserve] at hcounted
    obtain ⟨htells, hlongest⟩ := counters_tell_history backend {} { limit := none } hmake hserve
    exact ⟨g, _, result.1, result.2, hmake, hserve, Recorder.advances _, Option.some.inj hcounted,
      htells, hlongest (Recorder.advances _)⟩

end Generator

end SplitRadix

import SplitRadix.Proofs.Capacity
import SplitRadix.Proofs.Chunks

/-!
# Memory stays within the limit

A session with a limit may be used in any way: room for nodes is taken directly or for a
decomposition, routines are generated, memory is given back, and any of this may fail on the way. The
limit is looked at only when a chunk is added, which has to fit what the chunks before have left of
it. Nothing else adds to what they hold, so that the limit is never exceeded.

* `Arena.Within`: the chunks hold at most the limit; `Within.allocate`, `Within.reset`: it stays so.
* `Session.decompose_arena`, `Attempt.arena`: what becomes of the arena while nodes are stored.
* `generate_arena`: what a generation leaves of it, whatever its outcome.
* `Use`, `after`: the ways a session can be used.
* `memory_within_limit`: the limit holds after any number of uses.
-/

namespace SplitRadix

open Target Scratch
open Transform (Plan)

variable {σ : Type}

namespace Scratch

/-! ## The arena -/

namespace Arena

variable {a b : Arena} {limit bytes : Nat}

/-- The chunks hold at most `n` bytes, and that is the limit. -/
structure Within (n : Nat) (a : Arena) : Prop where
  limit : a.limit = some n
  used : a.used ≤ n

/-- A new chunk takes no more than what is left of the limit. -/
theorem Within.allocate (h : a.Within limit) (hb : a.allocate bytes = some b) : b.Within limit := by
  refine ⟨(limit_allocate hb).trans h.limit, ?_⟩
  have hused := h.used
  rcases allocate_eq_some hb with ⟨hsame, -⟩ | ⟨tried, -, hadmits, rfl⟩
  · rwa [hsame]
  · have hroom := ((admits_iff h.limit).1 hadmits).2
    show Arena.chunkSize _ + a.used ≤ limit
    omega

theorem used_reset_le (a : Arena) : a.reset.used ≤ a.used := by
  obtain ⟨l, _ | ⟨chunk, rest⟩⟩ := a
  · exact Nat.le_refl _
  · rw [reset_cons, used_cons, used_cons]
    exact Nat.add_le_add_left (Nat.zero_le _) _

/-- Giving memory back keeps one chunk of those there were. -/
theorem Within.reset (h : a.Within limit) : a.reset.Within limit :=
  ⟨(limit_reset a).trans h.limit, Nat.le_trans (used_reset_le a) h.used⟩

end Arena

/-! ## The session -/

namespace Session

/-- Room for nodes is taken from the arena, or nothing changes. -/
theorem reserve_arena (n : Nat) (s : Session) :
    (reserve n).Ensures s (fun _ t => s.arena.allocate (nodeSize * n) = some t.arena)
      fun _ t => t = s := by
  unfold reserve Action.Ensures Action.result ExceptT.run
  dsimp only
  by_cases hlarge : maxRequest < nodeSize * n
  · rw [if_pos hlarge]
  · rw [if_neg hlarge]
    cases h : s.arena.allocate (nodeSize * n) <;> rfl

theorem allocate_arena (n : Nat) (s : Session) :
    (allocate n).Ensures s (fun _ t => s.arena.allocate (nodeSize * n) = some t.arena)
      fun _ t => t = s := by
  unfold allocate
  rw [Action.ensures_bind]
  exact reserve_arena n s

/-- Room for a decomposition is taken once, before anything of it is stored. -/
theorem decompose_arena (n leaf : Nat) (s : Session) :
    let taken (t : Session) : Prop :=
      s.arena.allocate (nodeSize * (Decomposition.count n leaf + 1)) = some t.arena
    (decompose n leaf).Ensures s (fun _ t => taken t) fun _ t => t = s ∨ taken t := by
  intro taken
  unfold decompose
  simp only [Action.ensures_bind, Action.ensures_lift, Action.ensures_pure]
  refine ⟨fun internal hcount => ⟨fun total htotal => ?_, fun _ _ => .inl trivial⟩,
    fun _ _ => .inl trivial⟩
  obtain ⟨rfl, -⟩ := Word.add_eq_ok.1 htotal
  rw [Routine.countWord_eq_ok hcount]
  refine (allocate_arena _ s).mono (fun slots t ht => ?_) fun _ t ht => .inl ht
  exact ⟨fun _ _ => ht, fun _ _ => .inr ht⟩

end Session

end Scratch

/-! ## A generation -/

namespace Generator

variable {g t : Generation σ} {request : Request}

/-- An attempt leaves the arena as it is or takes room for its nodes. -/
theorem Attempt.arena {result : Except (Failure GenerateError) (Routine × CallChain.Summary)}
    (h : Attempt g request result t) :
    t.generator.session.arena = g.generator.session.arena ∨
      g.generator.session.arena.allocate
        (Session.nodeSize * (Decomposition.count request.size request.leaf + 1)) =
          some t.generator.session.arena := by
  have hdecompose := Session.decompose_arena request.size request.leaf g.generator.session
  cases h with
  | refused _ => exact .inl rfl
  | noScratch _ hnodes _ =>
    refine (hdecompose.of_error hnodes).imp_left fun hsame => ?_
    subst hsame
    rfl
  | noBound hp _ => exact .inr (hdecompose.of_ok hp.stored)
  | tooSmall hp _ _ => exact .inr (hdecompose.of_ok hp.stored)
  | noSchedule hp _ => exact .inr (hdecompose.of_ok hp.stored)
  | written hp _ _ _ _ => exact .inr (hdecompose.of_ok hp.stored)

/-- Counting changes nothing in the arena. -/
theorem record_arena (update : Action Statistics Fault Unit) :
    (record update).Ensures g
      (fun _ u => u.generator.session.arena = g.generator.session.arena)
      fun _ u => u.generator.session.arena = g.generator.session.arena := by
  rw [ensures_record]
  exact Action.ensures_iff.2 ⟨fun _ _ _ => rfl, fun _ _ _ => rfl⟩

/-- The memory is given back before the outcome is counted, except after a fault. -/
theorem conclude_arena (request : Request)
    (result : Except (Failure GenerateError) (Routine × CallChain.Summary)) (g : Generation σ) :
    let ends (u : Generation σ) : Prop :=
      u.generator.session.arena = g.generator.session.arena ∨
        u.generator.session.arena = g.generator.session.arena.reset
    (conclude request result).Ensures g (fun _ u => ends u) fun _ u => ends u := by
  intro ends
  cases result with
  | ok result =>
    unfold conclude release
    simp only [Action.ensures_bind, Action.ensures_modify]
    refine (record_arena _).mono (fun _ t ht => ?_) fun _ _ h => .inr h
    exact (record_arena _).mono (fun _ _ hu => .inr (hu.trans ht)) fun _ _ h => .inr (h.trans ht)
  | error failure =>
    cases failure with
    | error cause =>
      unfold conclude release
      simp only [Action.ensures_bind, Action.ensures_modify]
      exact (record_arena _).mono (fun _ _ hu => .inr hu) fun _ _ h => .inr h
    | fault x => exact .inl rfl

/-- What holds of an arena whatever is taken from it and also when it is given back, holds after a
generation. -/
theorem generate_arena (inv : Arena → Prop)
    (hallocate : ∀ a bytes b, inv a → a.allocate bytes = some b → inv b)
    (hreset : ∀ a, inv a → inv a.reset) (request : Request) (g : Generation σ)
    (h : inv g.generator.session.arena) :
    inv ((generate request).result g).2.generator.session.arena := by
  rw [result_generate]
  rcases hr : (attempt request).result g with ⟨result, t⟩
  have ht : inv t.generator.session.arena := by
    rcases (attempt_of_result hr).arena with hsame | htaken
    · rwa [hsame]
    · exact hallocate _ _ _ h htaken
  have hends : ∀ u : Generation σ, u.generator.session.arena = t.generator.session.arena ∨
      u.generator.session.arena = t.generator.session.arena.reset →
      inv u.generator.session.arena := by
    intro u hu
    rcases hu with hsame | hgiven
    · rwa [hsame]
    · rw [hgiven]
      exact hreset _ ht
  have hconclude := conclude_arena request result t
  rcases hu : (conclude request result).result t with ⟨_ | _, u⟩
  · exact hends u (hconclude.of_error hu)
  · exact hends u (hconclude.of_ok hu)

end Generator

/-! ## Any number of uses -/

namespace Generator

/-- What can be done with the session of a generator. -/
inductive Use where
  | allocate (nodes : Nat)
  | decompose (n leaf : Nat)
  | generate (plan : Plan) (request : Request)
  | reset

/-- The generator after a use, whatever the outcome was. -/
def after (g : Generator σ) : Use → Generator σ
  | .allocate nodes => { g with session := ((Session.allocate nodes).result g.session).2 }
  | .decompose n leaf => { g with session := ((Session.decompose n leaf).result g.session).2 }
  | .generate plan request => ((generate request).result { generator := g, plan }).2.generator
  | .reset => { g with session := g.session.reset }

/-- One more use stays within the limit. -/
theorem within_after {g : Generator σ} {limit : Nat} (h : g.session.arena.Within limit) (use : Use) :
    (g.after use).session.arena.Within limit := by
  cases use with
  | allocate nodes =>
    have harena := Session.allocate_arena nodes g.session
    rcases hr : (Session.allocate nodes).result g.session with ⟨_ | _, s⟩
    · rw [after, hr, harena.of_error hr]
      exact h
    · rw [after, hr]
      exact h.allocate (harena.of_ok hr)
  | decompose n leaf =>
    have harena := Session.decompose_arena n leaf g.session
    rcases hr : (Session.decompose n leaf).result g.session with ⟨_ | _, s⟩
    · rw [after, hr]
      rcases harena.of_error hr with hsame | htaken
      · rw [hsame]
        exact h
      · exact h.allocate htaken
    · rw [after, hr]
      exact h.allocate (harena.of_ok hr)
  | generate plan request =>
    exact generate_arena (Arena.Within limit) (fun _ _ _ h hb => h.allocate hb) (fun _ h => h.reset)
      request { generator := g, plan } h
  | reset => exact h.reset

/-- A session made with a limit never holds more than that. -/
theorem memory_within_limit (backend : Backend σ) (own : σ) (limit : Nat) (uses : List Use) :
    let last := uses.foldl after { backend, own, session := .start (some limit) }
    last.session.arena.limit = some limit ∧ last.session.memoryUsed ≤ limit := by
  intro last
  have hstart : (Session.start (some limit)).arena.Within limit := ⟨rfl, Nat.zero_le limit⟩
  have hlast : last.session.arena.Within limit := by
    refine List.foldlRecOn (motive := fun g : Generator σ => g.session.arena.Within limit)
      uses after hstart fun g h use _ => within_after h use
  exact ⟨hlast.limit, hlast.used⟩

end Generator

end SplitRadix

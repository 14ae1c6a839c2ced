import SplitRadix.Proofs.Ranges

/-!
# Which counts a schedule is for

The loop bounds of a schedule tell the block counts it was made for, so it is for one pair of counts
only. Counts are taken modulo 2^32 before anything is checked: a schedule made for larger ones is a
schedule for their low halves, without a fault.

* `Schedule.CarriesOut`: the passes and loop bounds of a schedule are those of some counts.
* `Schedule.CarriesOut.unique`: of one pair of counts only.
* `schedule_takes_low_counts`: which counts have a schedule, and which counts it carries out.
* `large_count_is_cut`: a count above 2^32 that is cut to one block.
-/

namespace SplitRadix

namespace Transform.IterationCounts

/-- The low halves of the counts. -/
def low32 (counts : IterationCounts) : IterationCounts :=
  ⟨Word.low32 counts.primary, Word.low32 counts.secondary⟩

theorem low32_eq_self_iff {counts : IterationCounts} :
    counts.low32 = counts ↔ counts.primary < 2 ^ 32 ∧ counts.secondary < 2 ^ 32 := by
  obtain ⟨primary, secondary⟩ := counts
  unfold low32 Word.low32
  rw [mk.injEq]
  dsimp only
  omega

end Transform.IterationCounts

namespace Leaf

open Transform (IterationCounts)

/-- The blocks that a step is meant to run. -/
def Step.share (counts : IterationCounts) (step : Step) : Nat :=
  match step.pass, step.order with
  | .evenEven, .trailing => counts.secondary
  | .evenEven, _ => counts.primary
  | .oddOdd, _ => counts.secondary
  | .evenOdd, _ => 1
  | .oddEven, _ => 1

/-- Every loop bound that a step loads is four times the blocks meant to have run after it, where
`blocks` have run before the first. -/
def ReloadsFrom (counts : IterationCounts) : List Step → Nat → Prop
  | [], _ => True
  | step :: rest, blocks =>
    (∀ bound, step.reload = some bound → bound = 4 * (blocks + step.share counts)) ∧
    ReloadsFrom counts rest (blocks + step.share counts)

/-- The passes and the loop bounds of a schedule are those of `counts`. -/
structure Schedule.CarriesOut (counts : IterationCounts) (schedule : Schedule) : Prop where
  initial : schedule.initial = 4 * counts.primary
  oddOdd : (∃ step ∈ schedule.steps, step.pass = .oddOdd) ↔ counts.secondary ≠ 0
  trailing : (∃ step ∈ schedule.steps, step.pass = .evenEven ∧ step.order = .trailing) ↔
    counts.secondary ≠ 0
  reloads : ReloadsFrom counts schedule.steps 0
  final : schedule.final = 4 * (counts.primary + 2 * counts.secondary + 1)

/-- The first bound and the last one determine both counts. -/
theorem Schedule.CarriesOut.unique {schedule : Schedule} {counts others : IterationCounts}
    (h : schedule.CarriesOut counts) (hothers : schedule.CarriesOut others) : counts = others := by
  obtain ⟨primary, secondary⟩ := counts
  obtain ⟨primary', secondary'⟩ := others
  have hinitial : 4 * primary = 4 * primary' := h.initial.symm.trans hothers.initial
  have hfinal : 4 * (primary + 2 * secondary + 1) = 4 * (primary' + 2 * secondary' + 1) :=
    h.final.symm.trans hothers.final
  rw [IterationCounts.mk.injEq]
  omega

/-- A schedule with bounds of any length carries out its counts. -/
theorem Schedule.carriesOut_exact (n primary secondary : Nat) :
    (exact n primary secondary).CarriesOut ⟨primary, secondary⟩ := by
  unfold exact
  by_cases hsecond : secondary = 0
  · rw [if_pos (by omega)]
    constructor <;> cases isOddSize n <;>
      simp [hsecond, Step.opening, Step.oddEven, Step.evenOdd, ReloadsFrom] <;> omega
  · rw [if_neg (by omega)]
    cases isOddSize n
    · rw [if_neg Bool.false_ne_true]
      constructor <;>
        simp [hsecond, Step.opening, Step.evenOdd, Step.oddOdd, Step.closing, ReloadsFrom,
          Step.share] <;> omega
    · rw [if_pos rfl]
      constructor <;>
        simp [hsecond, Step.opening, Step.oddEven, Step.oddOdd, Step.closing, ReloadsFrom,
          Step.share] <;> omega

/-- Counts have a schedule if and only if their low halves fit 32-bit loop bounds. The schedule is one
for the low halves, and so for the counts themselves only if these are 32-bit numbers. -/
theorem schedule_takes_low_counts (n : Nat) (counts : IterationCounts) :
    ((∃ schedule, Schedule.make n counts = .ok schedule) ↔ counts.Fit) ∧
    ∀ schedule, Schedule.make n counts = .ok schedule →
      schedule.CarriesOut counts.low32 ∧
      (schedule.CarriesOut counts ↔ counts.primary < 2 ^ 32 ∧ counts.secondary < 2 ^ 32) := by
  refine ⟨⟨?_, fun hfit => ⟨_, Schedule.make_of_fit n hfit⟩⟩, ?_⟩
  · rintro ⟨schedule, hmake⟩
    exact Schedule.fit_of_make hmake
  intro schedule hmake
  have hlow : schedule.CarriesOut counts.low32 := by
    cases (Schedule.make_of_fit n (Schedule.fit_of_make hmake)).symm.trans hmake
    exact Schedule.carriesOut_exact n _ _
  refine ⟨hlow, ?_⟩
  rw [← IterationCounts.low32_eq_self_iff]
  constructor
  · exact hlow.unique
  · intro hself
    rwa [hself] at hlow

/-- Of a secondary count of 2^32 + 2 the two blocks are left. -/
theorem schedule_takes_low_counts_of_secondary :
    ∃ schedule, Schedule.make 128 ⟨3, 2 ^ 32 + 2⟩ = .ok schedule ∧
      schedule.CarriesOut ⟨3, 2⟩ ∧ ¬schedule.CarriesOut ⟨3, 2 ^ 32 + 2⟩ := by
  obtain ⟨hexists, hcarries⟩ := schedule_takes_low_counts 128 ⟨3, 2 ^ 32 + 2⟩
  obtain ⟨schedule, hmake⟩ := hexists.2 (by decide)
  obtain ⟨hlow, hself⟩ := hcarries schedule hmake
  refine ⟨schedule, hmake, hlow, ?_⟩
  intro hlarge
  exact absurd (hself.1 hlarge).2 (by decide)

/-- A primary count of 2^32 + 1 is cut to one block. -/
theorem large_count_is_cut :
    ∃ schedule, Schedule.make 64 ⟨2 ^ 32 + 1, 0⟩ = .ok schedule ∧
      schedule.initial = 4 ∧ schedule.final = 8 ∧
      schedule.CarriesOut ⟨1, 0⟩ ∧ ¬schedule.CarriesOut ⟨2 ^ 32 + 1, 0⟩ := by
  have hone : Schedule.CarriesOut ⟨1, 0⟩ (.exact 64 1 0) := Schedule.carriesOut_exact 64 1 0
  refine ⟨.exact 64 1 0, Schedule.make_of_fit 64 (by decide), hone.initial, hone.final, hone, ?_⟩
  intro hlarge
  cases hone.unique hlarge

end Leaf

end SplitRadix

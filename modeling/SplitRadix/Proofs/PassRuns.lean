import SplitRadix.Proofs.Blocks

/-!
# How a schedule runs

The leaf passes share an index and a loop bound. A block moves the index on by four. A pass that
loops runs a block and goes back for another one while the index is below the bound; a mixed pass
runs one block. With the counts it was made for, every loop of a schedule ends on its bound and not
past it.

* `Pass.blocks`: how many blocks a pass runs; `Schedule.run`: what each pass of a schedule does.
* `plannedWork`: what the passes are meant to do.
* `run_exact`: a schedule does what its counts say.
* `reference_schedule_covers`: with the reference counts the blocks cover the transform.
-/

namespace SplitRadix.Leaf

open Transform (IterationCounts)

/-- The blocks that a pass runs from `index` on. -/
def Pass.blocks (pass : Pass) (bound index : Nat) : Nat :=
  if pass.loops = true ∧ index + 4 < bound then pass.blocks bound (index + 4) + 1 else 1
termination_by bound - index

/-- The loop, block by block, runs as many blocks as the closed form says. -/
theorem Step.blocksFrom_eq (step : Step) (bound blocks : Nat) :
    step.blocksFrom bound blocks = blocks + step.pass.blocks bound (4 * blocks) := by
  generalize hindex : 4 * blocks = index
  fun_induction Pass.blocks step.pass bound index generalizing blocks with
  | case1 index h ih =>
    have hnext := ih (blocks + 1) (by omega)
    unfold Step.blocksFrom at hnext ⊢
    rw [if_pos h.1] at hnext ⊢
    omega
  | case2 index h =>
    unfold Step.blocksFrom
    split
    case isTrue hloops =>
      have hlast : ¬index + 4 < bound := fun hlt => h ⟨hloops, hlt⟩
      omega
    case isFalse => rfl

/-- What a step of a schedule did when it ran. -/
structure Turn where
  step : Step
  bound : Nat     -- loop bound it ran with
  blocks : Nat    -- how many blocks it ran
  stop : Nat      -- index after them
  deriving DecidableEq, Repr

/-- Run a step from `index` on, with the loop bound `bound` unless it loads another. -/
def Step.turn (step : Step) (bound index : Nat) : Turn :=
  let bound := step.boundFrom bound
  let blocks := step.pass.blocks bound index
  ⟨step, bound, blocks, index + 4 * blocks⟩

/-- Run steps one after the other. -/
def runFrom : List Step → Nat → Nat → List Turn
  | [], _, _ => []
  | step :: rest, bound, index =>
    let turn := step.turn bound index
    turn :: runFrom rest turn.bound turn.stop

/-- Run all steps of a schedule, from index zero. -/
def Schedule.run (schedule : Schedule) : List Turn := runFrom schedule.steps schedule.initial 0

/-- The pass that ran, and how many blocks. -/
def Turn.work (turn : Turn) : Pass × Nat := (turn.step.pass, turn.blocks)

/-- What the passes are meant to run. The odd-odd pass stands before the mixed block of an odd size
and after that of an even size. -/
def plannedWork (odd : Bool) (counts : IterationCounts) : List (Pass × Nat) :=
  let again (pass : Pass) := if counts.secondary = 0 then [] else [(pass, counts.secondary)]
  let middle :=
    if odd then again .oddOdd ++ [(.oddEven, 1)] else (.evenOdd, 1) :: again .oddOdd
  (.evenEven, counts.primary) :: middle ++ again .evenEven

/-- A loop that starts `n` blocks before its bound ends on it. -/
theorem Step.turn_of_loops {step : Step} (h : step.pass.loops = true) {bound k n : Nat}
    (hn : 0 < n) (hbound : step.boundFrom bound = 4 * (k + n)) :
    step.turn bound (4 * k) = ⟨step, 4 * (k + n), n, 4 * (k + n)⟩ := by
  have hblocks : step.pass.blocks (4 * (k + n)) (4 * k) = n := by
    have hclosed := step.blocksFrom_eq (4 * (k + n)) k
    unfold Step.blocksFrom at hclosed
    rw [if_pos h] at hclosed
    omega
  unfold Step.turn
  simp only [hbound, hblocks, ← Nat.mul_add]

theorem Step.turn_of_mixed {step : Step} (h : step.pass.loops = false) (bound k : Nat) :
    step.turn bound (4 * k) = ⟨step, step.boundFrom bound, 1, 4 * (k + 1)⟩ := by
  have hblocks : step.pass.blocks (step.boundFrom bound) (4 * k) = 1 := by
    have hclosed := step.blocksFrom_eq (step.boundFrom bound) k
    unfold Step.blocksFrom at hclosed
    rw [if_neg (by simp [h])] at hclosed
    omega
  unfold Step.turn
  simp only [hblocks, Nat.mul_add]

section

variable (bound k : Nat)

theorem Step.turn_oddEven :
    oddEven.turn bound (4 * k) = ⟨oddEven, bound, 1, 4 * (k + 1)⟩ :=
  turn_of_mixed rfl bound k

theorem Step.turn_evenOdd :
    evenOdd.turn bound (4 * k) = ⟨evenOdd, bound, 1, 4 * (k + 1)⟩ :=
  turn_of_mixed rfl bound k

variable {n : Nat} (hn : 0 < n)

include hn

theorem Step.turn_opening : opening.turn (4 * n) 0 = ⟨opening, 4 * n, n, 4 * n⟩ := by
  have hbound : opening.boundFrom (4 * n) = 4 * (0 + n) := by
    rw [Nat.zero_add]
    rfl
  have hturn := turn_of_loops rfl hn hbound
  rwa [Nat.zero_add] at hturn

theorem Step.turn_oddOdd :
    (oddOdd (4 * (k + n))).turn bound (4 * k) =
      ⟨oddOdd (4 * (k + n)), 4 * (k + n), n, 4 * (k + n)⟩ :=
  turn_of_loops rfl hn rfl

theorem Step.turn_closing :
    (closing (4 * (k + n))).turn bound (4 * k) =
      ⟨closing (4 * (k + n)), 4 * (k + n), n, 4 * (k + n)⟩ :=
  turn_of_loops rfl hn rfl

end

/-- A turn that loops has ended on its bound. -/
def Turn.EndsOnBound (turn : Turn) : Prop := turn.step.pass.loops = true → turn.stop = turn.bound

/-- A schedule runs the blocks it was made for, and each of its loops ends on its bound. -/
theorem run_exact (n : Nat) {p : Nat} (h : 0 < p) (q : Nat) :
    let schedule := Schedule.exact n p q
    schedule.run.map Turn.work = plannedWork (isOddSize n) ⟨p, q⟩ ∧
    (∀ turn ∈ schedule.run, turn.EndsOnBound) ∧
    schedule.run.getLast?.map Turn.stop = some schedule.final := by
  intro schedule
  unfold schedule Schedule.exact
  by_cases hq : q = 0
  · rw [if_pos (by omega), show 4 * p + 4 = 4 * (p + 1) by omega]
    cases isOddSize n <;>
      simp only [Bool.false_eq_true, if_true, if_false, Schedule.run, runFrom, Step.turn_opening h,
        Step.turn_oddEven, Step.turn_evenOdd] <;>
      simp [plannedWork, Turn.work, Turn.EndsOnBound, hq, Step.opening, Step.oddEven, Step.evenOdd,
        Pass.loops]
  · have hpos : 0 < q := Nat.pos_of_ne_zero hq
    rw [if_neg (by omega)]
    -- each bound as four times the blocks run so far, in the order of the passes
    cases isOddSize n
    · rw [if_neg Bool.false_ne_true, show 4 * p + 4 * q + 4 = 4 * (p + 1 + q) by omega,
        show 4 * (p + 1 + q) + 4 * q = 4 * (p + 1 + q + q) by omega]
      simp only [Schedule.run, runFrom, Step.turn_opening h, Step.turn_evenOdd,
        Step.turn_oddOdd _ _ hpos, Step.turn_closing _ _ hpos]
      simp [plannedWork, Turn.work, Turn.EndsOnBound, hq, Step.opening, Step.oddOdd, Step.evenOdd,
        Step.closing, Pass.loops]
    · rw [if_pos rfl, show 4 * p + 4 * q = 4 * (p + q) by omega,
        show 4 * (p + q) + 4 + 4 * q = 4 * (p + q + 1 + q) by omega]
      simp only [Schedule.run, runFrom, Step.turn_opening h, Step.turn_oddEven,
        Step.turn_oddOdd _ _ hpos, Step.turn_closing _ _ hpos]
      simp [plannedWork, Turn.work, Turn.EndsOnBound, hq, Step.opening, Step.oddOdd, Step.oddEven,
        Step.closing, Pass.loops]

theorem isOddSize_two_pow (a : Nat) : isOddSize (2 ^ a) = ((2 ^ a).log2 % 2 == 1) := by
  rw [isOddSize, Word.trailingZeros_two_pow, Nat.log2_two_pow]

/-- With the reference counts of a supported transform there is a schedule. Its passes run the blocks
counted, every loop ends on its bound, and the blocks, for two leaves each, cover the transform. -/
theorem reference_schedule_covers {size leaf : Nat}
    (h : Transform.isSupported size leaf = .ok true) :
    ∃ counts schedule, IterationCounts.forSize size leaf = .ok counts ∧ 1 ≤ counts.primary ∧
      Schedule.make size counts = .ok schedule ∧
      schedule.run.map Turn.work = plannedWork (size.log2 % 2 == 1) counts ∧
      (∀ turn ∈ schedule.run, turn.EndsOnBound) ∧
      schedule.run.getLast?.map Turn.stop = some schedule.final ∧
      schedule.final / 4 * (2 * leaf) = size := by
  obtain ⟨a, b, rfl, rfl, hb, hba, ha⟩ := Transform.isSupported_iff.1 h
  obtain ⟨hprimary, hblocks⟩ := blocks_ofLeaves (k := a - b) (by omega)
  have hleaves : 2 ^ (a - b) ≤ 2 ^ 25 := Nat.pow_le_pow_right (by decide) (by omega)
  obtain ⟨hwork, hends, hlast⟩ :=
    run_exact (2 ^ a) hprimary (IterationCounts.ofLeaves (2 ^ (a - b))).secondary
  rw [isOddSize_two_pow] at hwork
  refine ⟨_, _, IterationCounts.forSize_two_pow (by omega), hprimary,
    Schedule.make_of_le _ hleaves, hwork, hends, hlast, ?_⟩
  rw [Schedule.final_exact, Nat.mul_div_cancel_left _ (by decide), ← Nat.mul_assoc,
    Nat.mul_comm _ 2, hblocks, ← Nat.pow_add, Nat.sub_add_cancel (by omega)]

/-- 128 points in leaves of 8: an odd size with secondary blocks. -/
theorem reference_schedule_covers_128 :
    Transform.isSupported 128 8 = .ok true ∧ ∃ schedule,
      Schedule.make 128 ⟨3, 2⟩ = .ok schedule ∧
      schedule.run.map Turn.work = [(.evenEven, 3), (.oddOdd, 2), (.oddEven, 1), (.evenEven, 2)] ∧
      (∀ turn ∈ schedule.run, turn.EndsOnBound) ∧
      schedule.run.getLast?.map Turn.stop = some schedule.final ∧
      schedule.final / 4 * 16 = 128 := by
  have hsupported : Transform.isSupported 128 8 = .ok true :=
    Transform.isSupported_iff.2 ⟨7, 3, by decide⟩
  obtain ⟨counts, schedule, hcounts, -, hmake, hwork, hends, hlast, hcovers⟩ :=
    reference_schedule_covers hsupported
  have hthree : IterationCounts.forSize 128 8 = .ok ⟨3, 2⟩ := rfl
  cases hthree.symm.trans hcounts
  exact ⟨hsupported, schedule, hmake, hwork, hends, hlast, hcovers⟩

end SplitRadix.Leaf

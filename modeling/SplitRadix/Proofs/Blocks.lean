import SplitRadix.Proofs.Reference

/-!
# How many blocks a schedule runs

A pass that loops runs a block at least once and until the index, which a block moves on by four, has
reached the loop bound. The other passes run one block. A pass keeps the bound of the pass before
unless the schedule loads another.

* `blocksAfter`: the blocks that have run after some steps of a schedule.
* `blocksAfter_exact`: a schedule runs the blocks it was made for.
* `Schedule.of_reference`: with reference parameters that is one block for two leaves.
-/

namespace SplitRadix.Leaf

open Transform (IterationCounts Parameters)

/-- The loop bound with which a step runs. -/
def Step.boundFrom (step : Step) (bound : Nat) : Nat := step.reload.getD bound

/-- The blocks that have run after a step with the loop bound `bound`, if `blocks` had before. -/
def Step.blocksFrom (step : Step) (bound blocks : Nat) : Nat :=
  if step.pass.loops then max (blocks + 1) ((bound + 3) / 4) else blocks + 1

/-- The blocks that have run after some steps. -/
def blocksAfter : List Step → Nat → Nat → Nat
  | [], _, blocks => blocks
  | step :: rest, bound, blocks =>
    blocksAfter rest (step.boundFrom bound) (step.blocksFrom (step.boundFrom bound) blocks)

theorem Step.lt_blocksFrom (step : Step) (bound blocks : Nat) :
    blocks < step.blocksFrom bound blocks := by
  unfold blocksFrom
  split <;> omega

theorem le_blocksAfter (steps : List Step) (bound blocks : Nat) :
    blocks ≤ blocksAfter steps bound blocks := by
  induction steps generalizing bound blocks with
  | nil => exact Nat.le_refl _
  | cons step rest ih =>
    exact Nat.le_trans (Nat.le_of_lt (step.lt_blocksFrom _ _)) (ih _ _)

/-- A schedule runs the blocks it was made for. -/
theorem blocksAfter_exact (n : Nat) {primary : Nat} (h : 0 < primary) (secondary : Nat) :
    let schedule := Schedule.exact n primary secondary
    blocksAfter schedule.steps schedule.initial 0 = primary + 1 + 2 * secondary := by
  intro schedule
  unfold schedule Schedule.exact
  split
  · cases isOddSize n <;>
      simp [blocksAfter, Step.blocksFrom, Step.boundFrom, Step.opening, Step.oddEven, Step.evenOdd,
        Pass.loops] <;> omega
  · split <;>
      simp [blocksAfter, Step.blocksFrom, Step.boundFrom, Step.opening, Step.oddOdd, Step.oddEven,
        Step.evenOdd, Step.closing, Pass.loops] <;> omega

theorem two_pow_mod_six (k : Nat) : 2 ^ (k + 1) % 6 = 2 ∨ 2 ^ (k + 1) % 6 = 4 := by
  induction k with
  | zero => exact .inl rfl
  | succ k ih =>
    rw [Nat.pow_succ]
    omega

/-- With reference counts every block covers two leaves. -/
theorem blocks_ofLeaves {k : Nat} (h : 2 ≤ k) :
    let counts := IterationCounts.ofLeaves (2 ^ k)
    0 < counts.primary ∧ 2 * (counts.primary + 1 + 2 * counts.secondary) = 2 ^ k := by
  have hfour : 2 ^ 2 ≤ 2 ^ k := Nat.pow_le_pow_right (by decide) h
  have hmod := two_pow_mod_six (k - 1)
  rw [Nat.sub_add_cancel (by omega)] at hmod
  unfold IterationCounts.ofLeaves
  generalize 2 ^ k = leaves at hfour hmod
  intro counts
  unfold counts
  dsimp only
  split <;> omega

/-- All loop bounds of a schedule are 32-bit numbers. -/
structure Schedule.InRange (schedule : Schedule) : Prop where
  initial : schedule.initial < 2 ^ 32
  reload : ∀ step ∈ schedule.steps, ∀ bound, step.reload = some bound → bound < 2 ^ 32

theorem Schedule.inRange_exact (n : Nat) {primary secondary : Nat}
    (h : primary + 1 + 2 * secondary < 2 ^ 30) : (exact n primary secondary).InRange := by
  unfold exact
  split
  · refine ⟨by dsimp only; omega, ?_⟩
    cases isOddSize n <;> simp [Step.opening, Step.oddEven, Step.evenOdd]
  · split <;> refine ⟨by dsimp only; omega, ?_⟩ <;>
      simp [Step.opening, Step.oddOdd, Step.oddEven, Step.evenOdd, Step.closing] <;> omega

/-- With reference parameters there is a schedule, and it runs one block for two leaves. -/
theorem Schedule.of_reference {size leaf : Nat} {params : Parameters}
    (h : Parameters.make size leaf = .ok params) :
    ∃ schedule, Schedule.make size params.iterations = .ok schedule ∧ schedule.InRange ∧
      2 * blocksAfter schedule.steps schedule.initial 0 = size / leaf := by
  obtain ⟨a, b, rfl, rfl, hb, hba, ha, rfl⟩ := Parameters.eq_of_make h
  obtain ⟨hprimary, hblocks⟩ := blocks_ofLeaves (k := a - b) (by omega)
  have hleaves : 2 ^ (a - b) ≤ 2 ^ 25 := Nat.pow_le_pow_right (by decide) (by omega)
  refine ⟨_, make_of_le _ hleaves, inRange_exact _ (by omega), ?_⟩
  rw [blocksAfter_exact _ hprimary, hblocks, Nat.pow_div (by omega) (by decide)]

end SplitRadix.Leaf

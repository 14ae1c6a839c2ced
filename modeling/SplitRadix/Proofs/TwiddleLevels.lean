import SplitRadix.Proofs.Filling
import SplitRadix.Proofs.Reference

/-!
# The levels of the reference table

The twiddles of the levels lie one after the other. Leaves have an even number of elements, so a
quarter of the smallest nodes and three quarters of the others are whole numbers, and nothing is lost
where the widths are rounded. Every node above a leaf has a level, and the table has that level.

* `four_mul_levelWidth`: how many twiddles a level has.
* `levelStart_succ_eq`: where a level starts, in closed form.
* `reference_levels_adjoin`: the table of a transform.
-/

namespace SplitRadix.Transform

variable {leaf : Nat}

/-- The first level has a quarter of the size of its nodes, every other level three quarters. -/
theorem four_mul_levelWidth (h : leaf % 2 = 0) (level : Nat) :
    4 * levelWidth leaf level = if level = 0 then 2 * leaf else 3 * (2 * leaf * 2 ^ level) := by
  cases level with
  | zero =>
    show 4 * (2 * leaf * 2 ^ 0 / 4) = 2 * leaf
    omega
  | succ level =>
    rw [if_neg (Nat.succ_ne_zero level), levelWidth_succ, Nat.pow_succ]
    have hsize : 2 * leaf * (2 ^ level * 2) = 2 * 2 * (leaf * 2 ^ level) := by ac_rfl
    omega

theorem levelWidth_pos (hpos : 0 < leaf) (h : leaf % 2 = 0) (level : Nat) :
    0 < levelWidth leaf level := by
  have hwidth := four_mul_levelWidth h level
  have hsize : 0 < 2 * leaf * 2 ^ level := Nat.mul_pos (by omega) (Nat.two_pow_pos level)
  split at hwidth <;> omega

/-- A level starts after all lower levels. -/
theorem levelStart_lt (hpos : 0 < leaf) (h : leaf % 2 = 0) {i j : Nat} (hij : i < j) :
    levelStart leaf i < levelStart leaf j := by
  have hstep : ∀ level, levelStart leaf level < levelStart leaf (level + 1) := fun level =>
    Nat.lt_add_of_pos_right (levelWidth_pos hpos h level)
  induction hij with
  | refl => exact hstep i
  | step _ ih => exact Nat.lt_trans ih (hstep _)

/-- Above the first level the widths double, so that they add up to the next width less the lowest. -/
theorem levelStart_succ_eq (h : leaf % 2 = 0) (level : Nat) :
    levelStart leaf (level + 1) = leaf / 2 + 3 * leaf * (2 ^ level - 1) := by
  induction level with
  | zero =>
    show 0 + 2 * leaf * 2 ^ 0 / 4 = _
    omega
  | succ level ih =>
    have hpow := Nat.two_pow_pos level
    calc levelStart leaf (level + 2)
        = leaf / 2 + 3 * leaf * (2 ^ level - 1) + 3 * (leaf * 2 ^ level) := by
          rw [levelStart, ih, levelWidth_succ]
      _ = leaf / 2 + 3 * leaf * (2 ^ level - 1 + 2 ^ level) := by
          rw [Nat.mul_add, Nat.add_assoc, Nat.mul_assoc 3 leaf (2 ^ level)]
      _ = leaf / 2 + 3 * leaf * (2 ^ (level + 1) - 1) := by
          rw [show 2 ^ level - 1 + 2 ^ level = 2 ^ (level + 1) - 1 by omega]

theorem pairwise_referenceTable (hpos : 0 < leaf) (h : leaf % 2 = 0) (n : Nat) :
    (referenceTable leaf n).Pairwise (· < ·) := by
  rw [referenceTable, List.pairwise_map]
  exact List.pairwise_lt_range.imp fun hij => levelStart_lt hpos h hij

/-- The reference table of a supported transform has one entry for each level, in closed form and in
increasing order, and passes its check. The subtransforms of `leaf * 2 ^ j` elements find eight times
the start of level `j - 1`, which fits a signed 32-bit field. From one level to the next that is eight
bytes for each twiddle of the lower level, where the first level has exactly a quarter of the size of
its nodes and every other one exactly three quarters. All nodes of the transform find their level. -/
theorem reference_levels_adjoin {size leaf : Nat} (h : isSupported size leaf = .ok true) :
    ∃ n p, levels size leaf = .ok n ∧ n = (size / leaf).log2 ∧ size = leaf * 2 ^ n ∧
      Parameters.make size leaf = .ok p ∧ p.table.length = n ∧
      (∀ i < n, p.table[i]? =
        some (if i = 0 then 0 else leaf / 2 + 3 * leaf * (2 ^ (i - 1) - 1))) ∧
      p.table.Pairwise (· < ·) ∧ p.checkTable = .ok () ∧
      (∀ j, 1 ≤ j → j ≤ n → ∃ entry, p.table[j - 1]? = some entry ∧
        p.displacement (leaf * 2 ^ j) = .ok (some (8 * entry)) ∧ 8 * entry < 2 ^ 31) ∧
      (∀ i, i + 1 < n → ∃ lower twiddles,
        p.displacement (leaf * 2 ^ (i + 1)) = .ok (some lower) ∧
        p.displacement (leaf * 2 ^ (i + 2)) = .ok (some (lower + 8 * twiddles)) ∧
        4 * twiddles = if i = 0 then 2 * leaf else 3 * (2 * leaf * 2 ^ i)) ∧
      ∃ nodes, Decomposition.elaborate size leaf = .ok nodes ∧
        ∀ node ∈ nodes, ∃ lut, p.displacement node.size = .ok (some lut) := by
  have h3 := three_mul_lt_of_isSupported h
  obtain ⟨a, b, rfl, rfl, hb, hba, ha⟩ := isSupported_iff.1 h
  obtain ⟨c, rfl⟩ : ∃ c, a = b + c := ⟨a - b, by omega⟩
  have hsub : b + c - b = c := by omega
  have hpos := Nat.two_pow_pos b
  have heven : 2 ^ b % 2 = 0 := Nat.mod_eq_zero_of_dvd (Nat.pow_dvd_pow 2 hb)
  have hmake := Parameters.make_of_le hb hba ha
  have hlevels : levels (2 ^ (b + c)) (2 ^ b) = .ok c := by rw [levels_two_pow (by omega), hsub]
  rw [hsub] at hmake
  generalize hp : Parameters.mk _ _ _ _ = p at hmake
  have htable : p.table = referenceTable (2 ^ b) c := by rw [← hp]
  have hreference : p.IsReference (b + c) b := by
    rw [← hp]
    exact ⟨rfl, by rw [hsub], ha⟩
  -- the level of a subtransform of 2 ^ (i + 1) leaves
  have hdisplacement : ∀ i < c, p.displacement (2 ^ b * 2 ^ (i + 1)) =
      .ok (some (8 * levelStart (2 ^ b) i)) ∧ 8 * levelStart (2 ^ b) i ≤ 2 ^ 29 := by
    intro i hi
    rw [← Nat.pow_add, ← Nat.add_assoc]
    exact hreference.displacement (by omega)
  refine ⟨c, p, hlevels, ?_, Nat.pow_add 2 b c, hmake, ?_, ?_, ?_, ?_, ?_, ?_, ?_⟩
  · rw [Nat.pow_div (by omega) (by decide), hsub, Nat.log2_two_pow]
  · rw [htable]
    simp [referenceTable]
  · intro i hi
    rw [htable, getElem?_referenceTable hi]
    cases i with
    | zero => rfl
    | succ i => rw [if_neg (Nat.succ_ne_zero i), Nat.add_sub_cancel, levelStart_succ_eq heven]
  · rw [htable]
    exact pairwise_referenceTable hpos heven c
  · refine Parameters.checkTable_of_levels (n := c) ?_ ?_
    · rw [← hp]
      exact hlevels
    · rw [htable]
      simp [referenceTable]
  · intro j hj hjc
    obtain ⟨i, rfl⟩ : ∃ i, j = i + 1 := ⟨j - 1, by omega⟩
    obtain ⟨hfound, hsmall⟩ := hdisplacement i (by omega)
    refine ⟨levelStart (2 ^ b) i, ?_, hfound, by omega⟩
    rw [htable]
    exact getElem?_referenceTable (by omega)
  · intro i hi
    refine ⟨_, levelWidth (2 ^ b) i, (hdisplacement i (by omega)).1, ?_,
      four_mul_levelWidth heven i⟩
    rw [(hdisplacement (i + 1) hi).1, levelStart, Nat.mul_add]
  · refine ⟨_, Decomposition.elaborate_of_lt (2 ^ b) h3, fun node hnode => ?_⟩
    obtain ⟨lut, -, hlut⟩ := CallChain.lut_of_mem_postOrder hreference hnode
    exact ⟨lut, hlut⟩

/-- With leaves of two elements the first level is one twiddle wide. -/
theorem reference_levels_adjoin_of_64 :
    isSupported 64 2 = .ok true ∧
    ∃ p, Parameters.make 64 2 = .ok p ∧ p.table.length = 5 ∧ p.table[1]? = some 1 ∧
      p.table[4]? = some 43 ∧ p.checkTable = .ok () ∧ p.displacement 64 = .ok (some 344) ∧
      ∃ nodes, Decomposition.elaborate 64 2 = .ok nodes ∧
        ∀ node ∈ nodes, ∃ lut, p.displacement node.size = .ok (some lut) := by
  have hsupported : isSupported 64 2 = .ok true := isSupported_iff.2 ⟨6, 1, by decide⟩
  obtain ⟨n, p, -, hn, -, hmake, hlength, hentries, -, hcheck, hfound, -, hnodes⟩ :=
    reference_levels_adjoin hsupported
  have hfive : (64 / 2).log2 = 5 := by decide +kernel
  rw [hfive] at hn
  subst hn
  have hlast : p.table[4]? = some 43 := hentries 4 (by decide)
  obtain ⟨entry, hentry, hdisplacement, -⟩ := hfound 5 (by decide) (by decide)
  cases hlast.symm.trans hentry
  exact ⟨hsupported, p, hmake, hlength, hentries 1 (by decide), hlast, hcheck, hdisplacement, hnodes⟩

end SplitRadix.Transform

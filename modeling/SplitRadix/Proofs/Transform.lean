import SplitRadix.Proofs.Word
import SplitRadix.Transform.Parameters

/-!
# Supported sizes and their twiddle levels

A supported transform has 2^a elements and leaves of 2^b elements with 1 ≤ b, b + 2 ≤ a and a ≤ 26.
A subtransform of 2^(b + j + 1) elements uses level `j` of the twiddle table.

* `isSupported_iff`: the supported pairs as pairs of exponents.
* `displacement_two_pow`: where the twiddles of a subtransform start.
* `eq_of_make`: the reference parameters.
* `levelStart_le`: the reference table stays below the size of the transform.
-/

namespace SplitRadix.Transform

theorem isSupported_iff {size leaf : Nat} : isSupported size leaf = .ok true ↔
    ∃ a b, size = 2 ^ a ∧ leaf = 2 ^ b ∧ 1 ≤ b ∧ b + 2 ≤ a ∧ a ≤ 26 := by
  have hpow : ∀ {m n : Nat}, 2 ^ m ≤ 2 ^ n ↔ m ≤ n :=
    fun {m n} => Nat.pow_le_pow_iff_right (by decide)
  unfold isSupported
  constructor
  · intro h
    split at h
    · rename_i hc
      simp only [Bool.and_eq_true, decide_eq_true_eq, Word.isPowerOfTwo_iff] at hc
      obtain ⟨⟨⟨a, rfl⟩, b, rfl⟩, hb⟩ := hc
      obtain ⟨least, hleast, h⟩ := exceptBind_eq_ok.1 h
      obtain ⟨rfl, -⟩ := Word.mul_eq_ok.1 hleast
      have hle : (decide (4 * 2 ^ b ≤ 2 ^ a) && decide (2 ^ a ≤ 2 ^ 26)) = true := Except.ok.inj h
      simp only [Bool.and_eq_true, decide_eq_true_eq] at hle
      have hb : 2 ^ 1 ≤ 2 ^ b := hb
      have ha : 2 ^ (b + 2) ≤ 2 ^ a := by rw [Nat.pow_add]; omega
      exact ⟨a, b, rfl, rfl, hpow.1 hb, hpow.1 ha, hpow.1 hle.2⟩
    · cases h
  · rintro ⟨a, b, rfl, rfl, hb, hba, ha⟩
    have h2 : 2 ^ 1 ≤ 2 ^ b := hpow.2 hb
    have h4 : 2 ^ (b + 2) ≤ 2 ^ a := hpow.2 hba
    have h26 : 2 ^ a ≤ 2 ^ 26 := hpow.2 ha
    rw [Nat.pow_add] at h4
    rw [if_pos (by
      simp only [Bool.and_eq_true, decide_eq_true_eq, Word.isPowerOfTwo_iff]
      exact ⟨⟨⟨a, rfl⟩, b, rfl⟩, h2⟩)]
    have hmin : minSize (2 ^ b) = .ok (4 * 2 ^ b) := Word.mul_of_lt (by omega)
    rw [hmin]
    show Except.ok (decide (4 * 2 ^ b ≤ 2 ^ a) && decide (2 ^ a ≤ maxSize)) = .ok true
    rw [decide_eq_true (show 4 * 2 ^ b ≤ 2 ^ a by omega), decide_eq_true (show 2 ^ a ≤ maxSize from h26)]
    rfl

theorem le_of_isSupported {size leaf : Nat} (h : isSupported size leaf = .ok true) :
    size ≤ 2 ^ 26 := by
  obtain ⟨a, b, rfl, -, -, -, ha⟩ := isSupported_iff.1 h
  exact Nat.pow_le_pow_right (by decide) ha

theorem three_mul_lt_of_isSupported {size leaf : Nat} (h : isSupported size leaf = .ok true) :
    3 * size < 2 ^ 64 := by
  have := le_of_isSupported h
  omega

theorem four_dvd_of_isSupported {size leaf : Nat} (h : isSupported size leaf = .ok true) :
    4 ∣ size := by
  obtain ⟨a, b, rfl, -, -, hba, -⟩ := isSupported_iff.1 h
  exact Nat.pow_dvd_pow 2 (show 2 ≤ a by omega)

theorem lt_of_isSupported {size leaf : Nat} (h : isSupported size leaf = .ok true) :
    leaf < size := by
  obtain ⟨a, b, rfl, rfl, -, hba, -⟩ := isSupported_iff.1 h
  exact Nat.pow_lt_pow_right (by decide) (by omega)

theorem levels_two_pow {a b : Nat} (h : b ≤ a) : levels (2 ^ a) (2 ^ b) = .ok (a - b) := by
  have hb := Nat.two_pow_pos b
  unfold levels Word.div
  rw [if_neg (by omega), Nat.pow_div h (by decide)]
  show Except.ok (Word.trailingZeros (2 ^ (a - b))) = _
  rw [Word.trailingZeros_two_pow]

theorem IterationCounts.forSize_two_pow {a b : Nat} (h : b ≤ a) :
    IterationCounts.forSize (2 ^ a) (2 ^ b) = .ok (.ofLeaves (2 ^ (a - b))) := by
  have hb := Nat.two_pow_pos b
  unfold IterationCounts.forSize Word.div
  rw [if_neg (by omega), Nat.pow_div h (by decide)]
  rfl

namespace Parameters

/-- A subtransform of 2^(j + 1) leaves has its twiddles on level `j`, if the table has that level. -/
theorem displacement_two_pow {p : Parameters} {b j : Nat} (hleaf : p.leaf = 2 ^ b) :
    p.displacement (2 ^ (b + j + 1)) =
      match p.table[j]? with
      | none => .ok none
      | some start => (Word.mul 8 start).map some := by
  unfold displacement
  rw [hleaf, levels_two_pow (by omega), show b + j + 1 - b = j + 1 by omega]
  show (match p.table[j]? with
    | none => pure none
    | some start => do return some (← Word.mul 8 start)) = _
  cases p.table[j]? with
  | none => rfl
  | some start => cases h : Word.mul 8 start <;> simp [h] <;> rfl

/-- The table is accepted if it has all levels between a leaf and the transform. -/
theorem le_length_of_checkTable {p : Parameters} {a b : Nat} (hsize : p.size = 2 ^ a)
    (hleaf : p.leaf = 2 ^ b) (hba : b ≤ a) (h : p.checkTable = .ok ()) :
    a - b ≤ p.table.length := by
  unfold checkTable at h
  obtain ⟨required, hr, h⟩ := exceptBind_eq_ok.1 h
  rw [lift_eq_ok, hsize, hleaf, levels_two_pow hba] at hr
  cases hr
  split at h
  · cases h
  · omega

theorem checkTable_of_levels {p : Parameters} {n : Nat} (hlevels : levels p.size p.leaf = .ok n)
    (h : n ≤ p.table.length) : p.checkTable = .ok () := by
  unfold checkTable
  rw [hlevels]
  show (if p.table.length < n then _ else _) = _
  rw [if_neg (by omega)]
  rfl

theorem checkTable_of_le_length {p : Parameters} {a b : Nat} (hsize : p.size = 2 ^ a)
    (hleaf : p.leaf = 2 ^ b) (hba : b ≤ a) (h : a - b ≤ p.table.length) :
    p.checkTable = .ok () :=
  checkTable_of_levels (by rw [hsize, hleaf, levels_two_pow hba]) h

theorem eq_of_withTables {size leaf : Nat} {iterations : IterationCounts} {table : List Nat}
    {p : Parameters} (h : withTables size leaf iterations table = .ok p) :
    isSupported size leaf = .ok true ∧ p = { size, leaf, iterations, table } := by
  unfold withTables at h
  obtain ⟨supported, hs, h⟩ := exceptBind_eq_ok.1 h
  cases supported with
  | false => cases h
  | true =>
    cases h
    exact ⟨lift_eq_ok.1 hs, rfl⟩

theorem eq_of_make {size leaf : Nat} {p : Parameters} (h : make size leaf = .ok p) :
    ∃ a b, size = 2 ^ a ∧ leaf = 2 ^ b ∧ 1 ≤ b ∧ b + 2 ≤ a ∧ a ≤ 26 ∧
      p = { size, leaf, iterations := .ofLeaves (2 ^ (a - b)),
            table := referenceTable leaf (a - b) } := by
  unfold make at h
  obtain ⟨supported, hs, h⟩ := exceptBind_eq_ok.1 h
  rw [lift_eq_ok] at hs
  split at h
  · rename_i htrue
    rw [htrue] at hs
    obtain ⟨a, b, rfl, rfl, hb, hba, ha⟩ := isSupported_iff.1 hs
    refine ⟨a, b, rfl, rfl, hb, hba, ha, ?_⟩
    obtain ⟨counts, hc, h⟩ := exceptBind_eq_ok.1 h
    obtain ⟨n, hn, h⟩ := exceptBind_eq_ok.1 h
    rw [lift_eq_ok, levels_two_pow (by omega)] at hn
    rw [lift_eq_ok, IterationCounts.forSize_two_pow (by omega)] at hc
    cases hn
    cases hc
    cases h
    rfl
  · cases h

theorem make_of_le {a b : Nat} (hb : 1 ≤ b) (hba : b + 2 ≤ a) (ha : a ≤ 26) :
    make (2 ^ a) (2 ^ b) = .ok
      { size := 2 ^ a, leaf := 2 ^ b, iterations := .ofLeaves (2 ^ (a - b)),
        table := referenceTable (2 ^ b) (a - b) } := by
  have hsupported := isSupported_iff.2 ⟨a, b, rfl, rfl, hb, hba, ha⟩
  unfold make
  rw [hsupported, IterationCounts.forSize_two_pow (by omega), levels_two_pow (by omega)]
  rfl

end Parameters

theorem getElem?_referenceTable {leaf n i : Nat} (h : i < n) :
    (referenceTable leaf n)[i]? = some (levelStart leaf i) := by
  rw [referenceTable, List.getElem?_map, List.getElem?_range h]
  rfl

/-- The lower levels together hold at most as many twiddles as a node of the level has elements. -/
theorem levelStart_le (leaf level : Nat) : levelStart leaf level ≤ 2 * leaf * 2 ^ level := by
  induction level with
  | zero => exact Nat.zero_le _
  | succ level ih =>
    have hw : levelWidth leaf level ≤ 2 * leaf * 2 ^ level := by
      unfold levelWidth
      simp only
      generalize 2 * leaf * 2 ^ level = n
      split <;> omega
    calc levelStart leaf (level + 1)
        = levelStart leaf level + levelWidth leaf level := rfl
      _ ≤ 2 * leaf * 2 ^ level + 2 * leaf * 2 ^ level := Nat.add_le_add ih hw
      _ = 2 * leaf * 2 ^ (level + 1) := by rw [Nat.pow_succ, ← Nat.mul_assoc, Nat.mul_two]

/-- Above the first level a node of 4 * x elements has 3 * x twiddles. -/
theorem levelWidth_succ (leaf level : Nat) :
    levelWidth leaf (level + 1) = 3 * (leaf * 2 ^ level) := by
  have hsize : 2 * leaf * 2 ^ (level + 1) = 2 * 2 * (leaf * 2 ^ level) := by
    rw [Nat.pow_succ]
    ac_rfl
  unfold levelWidth
  rw [hsize, if_neg (Nat.succ_ne_zero level)]
  omega

/-- All levels but the first start at an odd place if half a leaf is odd, and at an even one if not. -/
theorem levelStart_succ_mod_two {leaf : Nat} (h : leaf % 2 = 0) (level : Nat) :
    levelStart leaf (level + 1) % 2 = leaf / 2 % 2 := by
  induction level with
  | zero =>
    show (0 + (2 * leaf * 1) / 4) % 2 = _
    omega
  | succ level ih =>
    have heven : leaf * 2 ^ level % 2 = 0 := by
      rw [Nat.mul_mod, h, Nat.zero_mul]
    rw [levelStart, levelWidth_succ]
    omega

end SplitRadix.Transform

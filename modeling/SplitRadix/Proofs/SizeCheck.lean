import SplitRadix.Proofs.Rejection

/-!
# The check of a size

Whether a transform can have a size is decided in one place. Reference parameters, parameters with
given tables and generations all ask there before they do anything else, so they agree on which pairs
of sizes they accept. The check takes four times the leaf size before it compares, and leaf sizes of
2^62 and 2^63 are too large for that. Where it should refuse such a pair, it ends in a fault.

* `Admissible`, `Overflows`: the pairs that are accepted, and those that fault.
* `Judged`: a function that begins with the check.
* `size_check_agrees`: all three functions do, and a generation refuses nothing else for its size.
* `huge_leaf_faults`: a pair that should be refused and is not.
-/

namespace SplitRadix

namespace Transform

/-- A transform of at least four leaves of two or more elements, up to 2^26 elements, all powers of
two. -/
def Admissible (size leaf : Nat) : Prop :=
  ∃ a b, size = 2 ^ a ∧ leaf = 2 ^ b ∧ 1 ≤ b ∧ b + 2 ≤ a ∧ a ≤ 26

/-- Two powers of two, of which the leaf size is too large to take four times. -/
def Overflows (size leaf : Nat) : Prop := ∃ a b, size = 2 ^ a ∧ leaf = 2 ^ b ∧ 62 ≤ b

variable {size leaf : Nat}

theorem isSupported_eq_true : isSupported size leaf = .ok true ↔ Admissible size leaf :=
  isSupported_iff

theorem two_pow_64_le_iff {b : Nat} : 2 ^ 64 ≤ 4 * 2 ^ b ↔ 62 ≤ b := by
  rw [show 4 * 2 ^ b = 2 ^ (b + 2) by rw [Nat.pow_add]; omega,
    Nat.pow_le_pow_iff_right (by decide)]
  omega

theorem isSupported_eq_error {x : Fault} :
    isSupported size leaf = .error x ↔ x = .mulOverflow ∧ Overflows size leaf := by
  unfold isSupported
  split
  · rename_i hc
    simp only [Bool.and_eq_true, decide_eq_true_eq, Word.isPowerOfTwo_iff] at hc
    obtain ⟨⟨⟨a, rfl⟩, b, rfl⟩, -⟩ := hc
    by_cases hlt : 4 * 2 ^ b < 2 ^ 64
    · rw [minSize, Word.mul_of_lt hlt]
      refine ⟨nofun, ?_⟩
      rintro ⟨-, c, d, -, hd, h62⟩
      rw [hd] at hlt
      exact absurd (two_pow_64_le_iff.2 h62) (Nat.not_le.2 hlt)
    · have hfull : minSize (2 ^ b) = .error .mulOverflow := Word.fit_eq_error.2 ⟨rfl, hlt⟩
      rw [hfull]
      constructor
      · intro h
        cases h
        exact ⟨rfl, a, b, rfl, rfl, two_pow_64_le_iff.1 (Nat.not_lt.1 hlt)⟩
      · rintro ⟨rfl, -⟩
        rfl
  · rename_i hc
    refine ⟨nofun, ?_⟩
    rintro ⟨-, a, b, rfl, rfl, h62⟩
    refine absurd ?_ hc
    simp only [Bool.and_eq_true, decide_eq_true_eq, Word.isPowerOfTwo_iff]
    have htwo : 2 ^ 1 ≤ 2 ^ b := Nat.pow_le_pow_right (by decide) (by omega)
    exact ⟨⟨⟨a, rfl⟩, b, rfl⟩, htwo⟩

theorem Overflows.not_admissible (h : Overflows size leaf) : ¬ Admissible size leaf := by
  intro hform
  have herror := isSupported_eq_error.2 ⟨rfl, h⟩
  rw [isSupported_eq_true.2 hform] at herror
  cases herror

/-- What is neither accepted nor a fault is refused. -/
theorem isSupported_eq_false :
    isSupported size leaf = .ok false ↔ ¬ Admissible size leaf ∧ ¬ Overflows size leaf := by
  rcases h : isSupported size leaf with x | _ | _
  · exact ⟨nofun, fun hneither => absurd (isSupported_eq_error.1 h).2 hneither.2⟩
  · refine ⟨fun _ => ⟨fun hform => ?_, fun hlarge => ?_⟩, fun _ => rfl⟩
    · rw [isSupported_eq_true.2 hform] at h
      cases h
    · rw [isSupported_eq_error.2 ⟨rfl, hlarge⟩] at h
      cases h
  · exact ⟨nofun, fun hneither => absurd (isSupported_eq_true.1 h) hneither.1⟩

/-- A function that begins with the check: it gives a value for the admissible pairs, refuses the
others, and faults where the check does. -/
structure Judged {ε α : Type} (size leaf : Nat) (refusal : ε) (x : Except (Failure ε) α) : Prop where
  accepts : (∃ a, x = .ok a) ↔ Admissible size leaf
  refuses : x = .error (.error refusal) ↔ ¬ Admissible size leaf ∧ ¬ Overflows size leaf
  faults : ∀ y, x = .error (.fault y) ↔ y = .mulOverflow ∧ Overflows size leaf

theorem judged_of_check {ε α : Type} {refusal : ε} {next : Except (Failure ε) α}
    (hnext : Admissible size leaf → ∃ a, next = .ok a) :
    Judged size leaf refusal (do
      let supported ← liftM (isSupported size leaf)
      if supported then next else throw (.error refusal)) := by
  generalize hx : (do
    let supported ← liftM (isSupported size leaf)
    if supported then next else throw (.error refusal) : Except (Failure ε) α) = x
  have hcases : (isSupported size leaf = .ok true ∧ ∃ a, x = .ok a) ∨
      (isSupported size leaf = .ok false ∧ x = .error (.error refusal)) ∨
      ∃ y, isSupported size leaf = .error y ∧ x = .error (.fault y) := by
    rcases h : isSupported size leaf with y | _ | _
    · rw [h] at hx
      exact .inr (.inr ⟨y, rfl, hx.symm⟩)
    · rw [h] at hx
      exact .inr (.inl ⟨rfl, hx.symm⟩)
    · rw [h] at hx
      obtain ⟨a, ha⟩ := hnext (isSupported_eq_true.1 h)
      exact .inl ⟨rfl, a, hx.symm.trans ha⟩
  constructor
  · rw [← isSupported_eq_true]
    rcases hcases with ⟨h, a, rfl⟩ | ⟨h, rfl⟩ | ⟨y, h, rfl⟩ <;> simp [h]
  · rw [← isSupported_eq_false]
    rcases hcases with ⟨h, a, rfl⟩ | ⟨h, rfl⟩ | ⟨y, h, rfl⟩ <;> simp [h]
  · intro z
    rw [← isSupported_eq_error]
    rcases hcases with ⟨h, a, rfl⟩ | ⟨h, rfl⟩ | ⟨y, h, rfl⟩ <;> simp [h]

theorem judged_withTables (size leaf : Nat) (iterations : IterationCounts) (table : List Nat) :
    Judged size leaf (.invalidSize size leaf)
      (Parameters.withTables size leaf iterations table) :=
  judged_of_check fun _ => ⟨_, rfl⟩

theorem judged_make (size leaf : Nat) :
    Judged size leaf (.invalidSize size leaf) (Parameters.make size leaf) := by
  refine judged_of_check fun h => ?_
  obtain ⟨a, b, rfl, rfl, hb, hba, ha⟩ := h
  rw [IterationCounts.forSize_two_pow (by omega), levels_two_pow (by omega)]
  exact ⟨_, rfl⟩

end Transform

namespace Generator

open Target
open Transform (Parameters IterationCounts Admissible Overflows Judged isSupported)

variable {σ : Type} {g : Generation σ} {request : Request} {params : Parameters}

/-! ## Generations -/

/-- Once the size of a request is supported, the rest of its check is about the plan and does not
fault. -/
theorem validate_of_supported (params : Parameters)
    (h : isSupported request.size request.leaf = .ok true) :
    validate params request = .ok () ∨
      ∃ reason, validate params request = .error (.error (.planMismatch reason)) := by
  have hvalidate : validate params request =
      if params.size ≠ request.size ∨ params.leaf ≠ request.leaf then
        .error (.error (.planMismatch
          (.otherTransform params.size params.leaf request.size request.leaf)))
      else params.checkTable.mapError (Failure.map fun cause => .planMismatch (.table cause)) := by
    unfold validate
    rw [h]
    rfl
  rw [hvalidate]
  split
  · exact .inr ⟨_, rfl⟩
  · rename_i hsame
    obtain ⟨a, b, ha, hb, -, hba, -⟩ := Transform.isSupported_iff.1 h
    have hlevels : Transform.levels params.size params.leaf = .ok (a - b) := by
      rw [show params.size = 2 ^ a by omega, show params.leaf = 2 ^ b by omega]
      exact Transform.levels_two_pow (by omega)
    have htable : params.checkTable = if params.table.length < a - b then
        .error (.error (.tableTooShort (a - b) params.table.length)) else .ok () := by
      unfold Parameters.checkTable
      rw [hlevels]
      rfl
    rw [htable]
    split
    · exact .inr ⟨_, rfl⟩
    · exact .inl rfl

theorem validate_cases (params : Parameters) (request : Request) :
    (isSupported request.size request.leaf = .ok true ∧ (validate params request = .ok () ∨
      ∃ reason, validate params request = .error (.error (.planMismatch reason)))) ∨
    (isSupported request.size request.leaf = .ok false ∧
      validate params request = .error (.error (.invalidSize request.size request.leaf))) ∨
    ∃ y, isSupported request.size request.leaf = .error y ∧
      validate params request = .error (.fault y) := by
  rcases h : isSupported request.size request.leaf with y | _ | _
  · refine .inr (.inr ⟨y, rfl, ?_⟩)
    unfold validate
    rw [h]
    rfl
  · refine .inr (.inl ⟨rfl, ?_⟩)
    unfold validate
    rw [h]
    rfl
  · exact .inl ⟨rfl, validate_of_supported params h⟩

theorem validate_eq_invalidSize :
    validate params request = .error (.error (.invalidSize request.size request.leaf)) ↔
      ¬ Admissible request.size request.leaf ∧ ¬ Overflows request.size request.leaf := by
  rw [← Transform.isSupported_eq_false]
  rcases validate_cases params request with ⟨h, hv | ⟨reason, hv⟩⟩ | ⟨h, hv⟩ | ⟨y, h, hv⟩ <;>
    simp [h, hv]

theorem validate_eq_fault {x : Fault} : validate params request = .error (.fault x) ↔
    x = .mulOverflow ∧ Overflows request.size request.leaf := by
  rw [← Transform.isSupported_eq_error]
  rcases validate_cases params request with ⟨h, hv | ⟨reason, hv⟩⟩ | ⟨h, hv⟩ | ⟨y, h, hv⟩ <;>
    simp [h, hv]

theorem attempt_of_refused {f : Failure GenerateError}
    (hvalid : validate g.plan.parameters request = .error f) :
    (attempt request).result g = (.error f, g) := by
  unfold attempt
  rw [Action.result_bind]
  show (do Action.ofExcept (validate g.plan.parameters request); _ : Generate σ _).result g = _
  rw [Action.result_bind, hvalid]
  rfl

/-- An attempt ends for an invalid size only where the check says so. -/
theorem Attempt.of_invalidSize (hlib : g.generator.backend.kernels.WellFormed)
    (hbackend : ¬ g.generator.backend.Reports (.error (.invalidSize request.size request.leaf)))
    {t : Generation σ}
    (h : Attempt g request (.error (.error (.invalidSize request.size request.leaf))) t) :
    validate g.plan.parameters request =
      .error (.error (.invalidSize request.size request.leaf)) := by
  cases h with
  | refused hvalid => exact hvalid
  | @noScratch _ c _ _ _ hf =>
    cases c with
    | error _ => cases hf
    | fault _ => cases hf
  | written hp _ _ _ hwrite =>
    exact absurd rfl ((hp.unrejected hlib rfl hbackend _ _).of_error hwrite)

/-- A generation reports an invalid size exactly where the check says so, as long as failures can be
counted. -/
theorem generate_eq_invalidSize (hlib : g.generator.backend.kernels.WellFormed)
    (hbackend : ¬ g.generator.backend.Reports (.error (.invalidSize request.size request.leaf))) :
    (∃ u, (generate request).result g =
        (.error (.error (.invalidSize request.size request.leaf)), u)) ↔
      validate g.plan.parameters request =
          .error (.error (.invalidSize request.size request.leaf)) ∧
        g.generator.session.statistics.failures + 1 < 2 ^ 64 := by
  have hconclude := conclude_error request (.invalidSize request.size request.leaf) g
  have hresult : validate g.plan.parameters request =
        .error (.error (.invalidSize request.size request.leaf)) →
      (generate request).result g =
        (conclude request (.error (.error (.invalidSize request.size request.leaf)))).result g := by
    intro hvalid
    rw [result_generate, attempt_of_refused hvalid]
  constructor
  · rintro ⟨u, hr⟩
    cases generate_ensures.of_error hr with
    | error hattempt _ _ _ =>
      have hvalid := hattempt.of_invalidSize hlib hbackend
      refine ⟨hvalid, Decidable.byContradiction fun hfull => ?_⟩
      rw [hresult hvalid] at hr
      have hfault := hconclude.of_error hr
      rw [if_neg hfull] at hfault
      cases hfault
  · rintro ⟨hvalid, hroom⟩
    rw [hresult hvalid]
    rw [if_pos hroom] at hconclude
    rcases hconclude.ended with ⟨_, _, _, hnone⟩ | ⟨f, u, hr, rfl⟩
    · exact hnone.elim
    · exact ⟨u, hr⟩

theorem generate_of_overflows (h : Overflows request.size request.leaf) :
    (generate request).result g = (.error (.fault .mulOverflow), g) := by
  rw [result_generate, attempt_of_refused (validate_eq_fault.2 ⟨rfl, h⟩)]
  rfl

/-- Reference parameters and parameters with given tables are made for exactly the admissible pairs. A
generation is refused for its size exactly if the pair is not admissible, provided that its failure
can be counted. The exception in all three is a leaf size of 2^62 or more: where both numbers are
powers of two, the check faults, and a generation ends with nothing changed. No other pair and no plan
makes the check of a request fault. -/
theorem size_check_agrees (size leaf : Nat) (iterations : IterationCounts) (table : List Nat)
    (g : Generation σ) (direction : Direction)
    (hlib : g.generator.backend.kernels.validate = .ok ())
    (hbackend : ¬ g.generator.backend.Reports (.error (.invalidSize size leaf))) :
    Judged size leaf (.invalidSize size leaf) (Parameters.make size leaf) ∧
    Judged size leaf (.invalidSize size leaf)
      (Parameters.withTables size leaf iterations table) ∧
    (∀ x, validate g.plan.parameters ⟨size, leaf, direction⟩ = .error (.fault x) ↔
      x = .mulOverflow ∧ Overflows size leaf) ∧
    ((∃ u, (generate ⟨size, leaf, direction⟩).result g =
        (.error (.error (.invalidSize size leaf)), u)) ↔
      (¬ Admissible size leaf ∧ ¬ Overflows size leaf) ∧
        g.generator.session.statistics.failures + 1 < 2 ^ 64) ∧
    (Overflows size leaf →
      (generate ⟨size, leaf, direction⟩).result g = (.error (.fault .mulOverflow), g)) := by
  refine ⟨Transform.judged_make size leaf, Transform.judged_withTables size leaf iterations table,
    fun _ => validate_eq_fault, ?_, fun h => generate_of_overflows h⟩
  have hlib := Kernel.Library.wellFormed_of_validate hlib
  have hreported := @generate_eq_invalidSize σ g ⟨size, leaf, direction⟩ hlib hbackend
  rw [validate_eq_invalidSize] at hreported
  exact hreported

/-- Two leaves of eight elements are refused everywhere. -/
theorem size_check_agrees_of_16 :
    let g : Generation Unit :=
      { generator := { backend := Machine.backend, own := (), session := .start none }
        plan := { parameters := ⟨64, 8, .ofLeaves 8, [0, 4, 28]⟩, region := .blank 4096 16 } }
    g.generator.backend.kernels.validate = .ok () ∧
    ¬ g.generator.backend.Reports (.error (.invalidSize 16 8)) ∧
    ¬ Admissible 16 8 ∧ ¬ Overflows 16 8 ∧
    Parameters.make 16 8 = .error (.error (.invalidSize 16 8)) ∧
    Parameters.withTables 16 8 ⟨1, 0⟩ [0] = .error (.error (.invalidSize 16 8)) ∧
    ∃ u, (generate ⟨16, 8, .inverse⟩).result g = (.error (.error (.invalidSize 16 8)), u) := by
  intro g
  have hlib : g.generator.backend.kernels.validate = .ok () := Machine.kernels_validate
  have hown : ¬ g.generator.backend.Reports (.error (.invalidSize 16 8)) :=
    Machine.not_reports_rejection rfl
  have hneither : ¬ Admissible 16 8 ∧ ¬ Overflows 16 8 :=
    Transform.isSupported_eq_false.1 (eq_ok_of_toOption (by decide +kernel))
  obtain ⟨hmake, htables, -, hreported, -⟩ :=
    size_check_agrees 16 8 ⟨1, 0⟩ [0] g .inverse hlib hown
  exact ⟨hlib, hown, hneither.1, hneither.2, hmake.refuses.2 hneither, htables.refuses.2 hneither,
    hreported.2 ⟨hneither, by decide⟩⟩

/-- A leaf size of 2^62 is no leaf size of a transform of 8 elements. It is not refused: the check of
the pair overflows, wherever it is made. -/
theorem huge_leaf_faults :
    let g : Generation Unit :=
      { generator := { backend := Machine.backend, own := (), session := .start none }
        plan := { parameters := ⟨64, 8, .ofLeaves 8, [0, 4, 28]⟩, region := .blank 4096 16 } }
    ¬ Admissible 8 (2 ^ 62) ∧
    Parameters.make 8 (2 ^ 62) = .error (.fault .mulOverflow) ∧
    Parameters.withTables 8 (2 ^ 62) ⟨1, 0⟩ [0] = .error (.fault .mulOverflow) ∧
    (generate ⟨8, 2 ^ 62, .forward⟩).result g = (.error (.fault .mulOverflow), g) := by
  intro g
  have hlarge : Overflows 8 (2 ^ 62) := ⟨3, 62, rfl, rfl, Nat.le_refl 62⟩
  exact ⟨hlarge.not_admissible, ((Transform.judged_make _ _).faults _).2 ⟨rfl, hlarge⟩,
    ((Transform.judged_withTables _ _ _ _).faults _).2 ⟨rfl, hlarge⟩, generate_of_overflows hlarge⟩

end Generator

end SplitRadix

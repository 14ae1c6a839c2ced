import SplitRadix.Proofs.Filling

/-!
# Arenas without a limit

An arena that is not limited refuses nothing that a decomposition asks for: the size of a new chunk
is halved until the system has such a chunk, and it never has to become smaller than the request.

* `nextPowerOfTwo_le`, `chunkSize_lt`: how large the chunk for a request is.
* `findChunk_ne_none`: the search for a chunk succeeds.
* `limit_allocate`, `limit_reset`: the limit stays what it was.
* `decompose_of_reserve`: only memory can be missing for a decomposition.
* `decompose_unlimited`: a session without a limit stores every decomposition.
-/

namespace SplitRadix.Scratch

namespace Arena

theorem nextPowerOfTwo_le {n : Nat} (h : 0 < n) : nextPowerOfTwo n ≤ 2 * n := by
  unfold nextPowerOfTwo
  split
  · omega
  · have := Nat.log2_self_le (show n - 1 ≠ 0 by omega)
    rw [Nat.pow_succ]
    omega

/-- A chunk is not much larger than what it is made for. -/
theorem chunkSize_lt {n : Nat} (h : n < 2 ^ 47) : chunkSize n < systemLimit := by
  unfold chunkSize systemLimit page footer
  split
  · have := @nextPowerOfTwo_le (n + 64) (by omega)
    omega
  · omega

theorem admits_of_lt {a : Arena} (hlimit : a.limit = none) {n : Nat} (h : n < 2 ^ 47) :
    a.admits (chunkSize n) = true := by
  unfold admits
  rw [hlimit]
  simp [chunkSize_lt h]

/-- Halving the size asked for reaches a chunk that can be had before it gets too small. -/
theorem findChunk_ne_none {a : Arena} (hlimit : a.limit = none) {bytes : Nat}
    (hbytes : bytes < 2 ^ 46) (base : Nat) (hbase : max bytes minChunk ≤ base) :
    a.findChunk bytes base ≠ none := by
  induction base using Nat.strongRecOn with
  | ind base ih =>
    have hmin : minChunk = 448 := rfl
    have hworth : a.worthwhile bytes base = true := by
      unfold worthwhile
      simp [hbase]
    rw [findChunk, if_neg (by omega), if_pos hworth]
    dsimp only
    by_cases hadmits : a.admits (chunkSize (max base bytes)) = true
    · rw [if_pos hadmits]
      exact nofun
    · rw [if_neg hadmits]
      have hlarge : 2 ^ 47 ≤ max base bytes := by
        by_cases hlt : max base bytes < 2 ^ 47
        · exact absurd (admits_of_lt hlimit hlt) hadmits
        · omega
      exact ih (base / 2) (by omega) (by omega)

theorem allocate_ne_none {a : Arena} (hlimit : a.limit = none) {bytes : Nat}
    (hbytes : bytes < 2 ^ 46) : a.allocate bytes ≠ none := by
  unfold allocate
  split
  · split <;> exact nofun
  · have hfind := findChunk_ne_none hlimit hbytes (max (2 * a.newest) (max bytes minChunk))
      (Nat.le_max_right _ _)
    split
    · rename_i hnone
      exact absurd hnone hfind
    · exact nofun

/-! ## The limit stays -/

theorem limit_allocate {a b : Arena} {bytes : Nat} (h : a.allocate bytes = some b) :
    b.limit = a.limit := by
  unfold allocate at h
  split at h
  · split at h <;> cases h <;> rfl
  · split at h <;> cases h
    rfl

@[simp] theorem limit_reset (a : Arena) : a.reset.limit = a.limit := by
  unfold reset
  split <;> rfl

end Arena

namespace Session

theorem reserve_unlimited {s : Session} (hlimit : s.arena.limit = none) {n : Nat}
    (hn : n < 2 ^ 42) :
    (reserve n).Ensures s (fun _ _ => True) fun _ _ => False := by
  have hsmall : ¬ maxRequest < nodeSize * n := by
    unfold maxRequest nodeSize
    omega
  have hroom := @Arena.allocate_ne_none s.arena hlimit (nodeSize * n) (by unfold nodeSize; omega)
  unfold reserve Action.Ensures Action.result ExceptT.run
  dsimp only
  rw [if_neg hsmall]
  cases h : s.arena.allocate (nodeSize * n) with
  | none => exact absurd h hroom
  | some arena => trivial

/-- Memory is refused with an error, for a request that is too large for words or by the arena. -/
theorem reserve_refused (n : Nat) (s : Session) :
    (reserve n).Ensures s (fun _ _ => True) fun f _ =>
      (maxRequest < nodeSize * n ∨ s.arena.allocate (nodeSize * n) = none) ∧
        ∃ cause, f = .error cause := by
  unfold reserve Action.Ensures Action.result ExceptT.run
  dsimp only
  by_cases hlarge : maxRequest < nodeSize * n
  · rw [if_pos hlarge]
    exact ⟨.inl hlarge, _, rfl⟩
  · rw [if_neg hlarge]
    cases h : s.arena.allocate (nodeSize * n) with
    | none => exact ⟨.inr rfl, _, rfl⟩
    | some arena => trivial

/-- Storing a decomposition fails only where memory for its nodes is refused. -/
theorem decompose_of_reserve {s : Session} {n leaf : Nat} (h3 : 3 * n < 2 ^ 64)
    (hcount : Decomposition.count n leaf + 1 < 2 ^ 64)
    {fail : Failure ScratchError → Session → Prop}
    (h : (reserve (Decomposition.count n leaf + 1)).Ensures s (fun _ _ => True) fail) :
    (decompose n leaf).Ensures s (fun _ _ => True) fail := by
  have hfill := @Decomposition.fill_blank leaf n h3 1
  unfold decompose allocate
  rw [Decomposition.countWord_of_lt leaf h3]
  rw [Action.ensures_bind, Action.ensures_lift_ok, Word.add_of_lt hcount, Action.ensures_bind,
    Action.ensures_lift_ok, Action.ensures_bind, Action.ensures_bind]
  refine h.mono ?_ fun _ _ hf => hf
  intro _ t _
  obtain ⟨filled, hr, -⟩ := hfill
  rw [Action.ensures_pure, hr]
  trivial

/-- A session without a limit stores every decomposition. -/
theorem decompose_unlimited {s : Session} (hlimit : s.arena.limit = none) {n leaf : Nat}
    (h3 : 3 * n < 2 ^ 64) (hcount : Decomposition.count n leaf < 2 ^ 41) :
    (decompose n leaf).Ensures s (fun _ _ => True) fun _ _ => False :=
  decompose_of_reserve h3 (by omega) (reserve_unlimited hlimit (by omega))

theorem reserve_limit (n : Nat) (s : Session) :
    (reserve n).Ensures s (fun _ t => t.arena.limit = s.arena.limit)
      fun _ t => t.arena.limit = s.arena.limit := by
  unfold reserve Action.Ensures Action.result ExceptT.run
  dsimp only
  by_cases hlarge : maxRequest < nodeSize * n
  · rw [if_pos hlarge]
  · rw [if_neg hlarge]
    cases h : s.arena.allocate (nodeSize * n) with
    | none => rfl
    | some arena => exact Arena.limit_allocate h

/-- Storing a decomposition does not change the limit. -/
theorem decompose_limit (n leaf : Nat) (s : Session) :
    (decompose n leaf).Ensures s (fun _ t => t.arena.limit = s.arena.limit)
      fun _ t => t.arena.limit = s.arena.limit := by
  unfold decompose allocate
  simp only [Action.ensures_bind, Action.ensures_lift, Action.ensures_pure]
  refine ⟨fun internal _ => ⟨fun total _ => ?_, fun _ _ => trivial⟩, fun _ _ => trivial⟩
  exact (reserve_limit total s).mono (fun _ _ ht => ⟨fun _ _ => ht, fun _ _ => ht⟩) fun _ _ ht => ht

end Session

end SplitRadix.Scratch

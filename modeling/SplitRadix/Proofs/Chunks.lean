import SplitRadix.Proofs.Scratch

/-!
# Which chunks an arena gets

A chunk is made for some number of bytes and holds at least that many. An arena that has been reset
holds one free chunk at most. It serves a request from that chunk, or else asks for one new chunk of
about twice the size; smaller ones are tried only by an empty arena with a small limit.

* `le_chunkSize`, `chunkSize_mono`, `chunkSize_chunkSize`: how large chunks are.
* `findChunk_eq_some`, `findChunk_of_last`, `findChunk_of_halving`: what the search for a chunk finds.
* `allocate_eq_some`, `allocate_eq_none`: how memory is taken, and when it is refused.
* `AtRest`: an arena that has been reset; `AtRest.next`: it is reset again after a request.
* `allocate_keeping`, `allocate_empty`, `AtRest.allocate_eq_none`: which requests it refuses.
-/

namespace SplitRadix.Scratch.Arena

variable {a b : Arena} {limit bytes base size n : Nat}

@[simp] theorem used_cons (limit : Option Nat) (chunk : Chunk) (rest : List Chunk) :
    used ⟨limit, chunk :: rest⟩ = chunk.size + used ⟨limit, rest⟩ := rfl

@[simp] theorem reset_cons (limit : Option Nat) (chunk : Chunk) (rest : List Chunk) :
    reset ⟨limit, chunk :: rest⟩ = ⟨limit, [⟨chunk.size, chunk.size⟩]⟩ := rfl

/-! ## Chunk sizes -/

theorem exists_nextPowerOfTwo (n : Nat) : ∃ k, nextPowerOfTwo n = 2 ^ k := by
  unfold nextPowerOfTwo
  split
  · exact ⟨0, rfl⟩
  · exact ⟨_, rfl⟩

theorem nextPowerOfTwo_le_iff {n k : Nat} : nextPowerOfTwo n ≤ 2 ^ k ↔ n ≤ 2 ^ k := by
  have hpos := Nat.two_pow_pos k
  unfold nextPowerOfTwo
  split
  · omega
  · rw [Nat.pow_le_pow_iff_right (by decide), Nat.succ_le_iff, Nat.log2_lt (by omega)]
    omega

theorem le_nextPowerOfTwo (n : Nat) : n ≤ nextPowerOfTwo n := by
  obtain ⟨k, hk⟩ := exists_nextPowerOfTwo n
  rw [hk]
  exact nextPowerOfTwo_le_iff.1 (Nat.le_of_eq hk)

theorem nextPowerOfTwo_mono {m n : Nat} (h : m ≤ n) : nextPowerOfTwo m ≤ nextPowerOfTwo n := by
  obtain ⟨k, hk⟩ := exists_nextPowerOfTwo n
  have hn := le_nextPowerOfTwo n
  rw [hk] at hn ⊢
  exact nextPowerOfTwo_le_iff.2 (Nat.le_trans h hn)

theorem nextPowerOfTwo_two_pow (k : Nat) : nextPowerOfTwo (2 ^ k) = 2 ^ k :=
  Nat.le_antisymm (nextPowerOfTwo_le_iff.2 (Nat.le_refl _)) (le_nextPowerOfTwo _)

theorem le_chunkSize (n : Nat) : n ≤ chunkSize n := by
  unfold chunkSize page
  split
  · have := le_nextPowerOfTwo (n + footer)
    omega
  · unfold footer
    omega

/-- A chunk for more is not smaller. -/
theorem chunkSize_mono {m n : Nat} (h : m ≤ n) : chunkSize m ≤ chunkSize n := by
  unfold chunkSize
  by_cases hn : n < page
  · rw [if_pos hn, if_pos (by omega)]
    exact Nat.sub_le_sub_right (nextPowerOfTwo_mono (by omega)) _
  · rw [if_neg hn]
    unfold page footer at *
    split
    · have : nextPowerOfTwo (m + 64) ≤ 2 ^ 13 := nextPowerOfTwo_le_iff.2 (by omega)
      omega
    · omega

/-- A chunk is made for as much as it holds. -/
theorem chunkSize_chunkSize (n : Nat) : chunkSize (chunkSize n) = chunkSize n := by
  by_cases hn : n < page
  · obtain ⟨k, hk⟩ := exists_nextPowerOfTwo (n + footer)
    have hle := le_nextPowerOfTwo (n + footer)
    have hmax : nextPowerOfTwo (n + footer) ≤ 2 ^ 13 :=
      nextPowerOfTwo_le_iff.2 (by unfold page at hn; unfold footer; omega)
    have hsize : chunkSize n = 2 ^ k - footer := by rw [chunkSize, if_pos hn, hk]
    rw [hk] at hle hmax
    have hsum : 2 ^ k - footer + footer = 2 ^ k := by omega
    rw [hsize]
    by_cases hlarge : 2 ^ k - footer < page
    · rw [chunkSize, if_pos hlarge, hsum, nextPowerOfTwo_two_pow]
    · -- only two pages are left
      have hk12 : 2 ^ 12 < 2 ^ k := by
        unfold page footer at hlarge
        omega
      have h12 := (Nat.pow_lt_pow_iff_right (by decide)).1 hk12
      have h13 := (Nat.pow_le_pow_iff_right (by decide)).1 hmax
      obtain rfl : k = 13 := by omega
      decide
  · have hsize : chunkSize n = (n + footer + (page - 1)) / page * page - footer := by
      rw [chunkSize, if_neg hn]
    rw [hsize, chunkSize]
    unfold page footer at *
    rw [if_neg (by omega)]
    omega

/-! ## The search for a chunk -/

/-- A chunk that is found was admitted, at a size made for no less than the request. -/
theorem findChunk_eq_some (h : a.findChunk bytes base = some size) :
    a.admits size = true ∧ ∃ tried, 0 < tried ∧ size = chunkSize (max tried bytes) := by
  fun_induction findChunk a bytes base with
  | case1 => cases h
  | case2 base hbase _ made hadmits =>
    have hsize : made = size := Option.some.inj h
    exact ⟨hsize ▸ hadmits, base, Nat.pos_of_ne_zero hbase, hsize.symm⟩
  | case3 base _ _ _ _ ih => exact ih h
  | case4 => cases h

theorem admits_iff (hlimit : a.limit = some limit) :
    a.admits size = true ↔ size < systemLimit ∧ size ≤ limit - a.used := by
  unfold admits
  rw [hlimit]
  simp only [Bool.and_eq_true, decide_eq_true_eq]

theorem worthwhile_iff (hlimit : a.limit = some limit) :
    a.worthwhile bytes base = true ↔ max bytes minChunk ≤ base ∨
      bytes < limit ∧ bytes ≤ base ∧ limit < minChunk ∧ a.used = 0 := by
  unfold worthwhile
  rw [hlimit]
  simp only [Bool.or_eq_true, Bool.and_eq_true, decide_eq_true_eq, beq_iff_eq, and_assoc]

theorem findChunk_of_not_worthwhile (h : ¬ a.worthwhile bytes base = true) :
    a.findChunk bytes base = none := by
  rw [findChunk]
  by_cases hbase : base = 0
  · rw [if_pos hbase]
  · rw [if_neg hbase, if_neg h]

theorem findChunk_of_worthwhile (hbase : 0 < base) (h : a.worthwhile bytes base = true) :
    a.findChunk bytes base =
      if a.admits (chunkSize (max base bytes)) = true then some (chunkSize (max base bytes))
      else a.findChunk bytes (base / 2) := by
  rw [findChunk, if_neg (by omega), if_pos h]

/-- One size is tried if half of it is not worth asking for. -/
theorem findChunk_of_last (hbase : 0 < base) (h : a.worthwhile bytes base = true)
    (hlast : ¬ a.worthwhile bytes (base / 2) = true) :
    a.findChunk bytes base = none ↔ ¬ a.admits (chunkSize (max base bytes)) = true := by
  rw [findChunk_of_worthwhile hbase h, findChunk_of_not_worthwhile hlast]
  split <;> simp [*]

/-- The search goes on to every size that is worth asking for. -/
theorem findChunk_of_halving {i : Nat} (hpos : 0 < base / 2 ^ i)
    (hworth : ∀ j ≤ i, a.worthwhile bytes (base / 2 ^ j) = true)
    (hadmits : a.admits (chunkSize (max (base / 2 ^ i) bytes)) = true) :
    a.findChunk bytes base ≠ none := by
  have hbase : 0 < base := Nat.lt_of_lt_of_le hpos (Nat.div_le_self _ _)
  have hfirst := hworth 0 (Nat.zero_le i)
  rw [Nat.pow_zero, Nat.div_one] at hfirst
  rw [findChunk_of_worthwhile hbase hfirst]
  induction i generalizing base with
  | zero =>
    rw [Nat.pow_zero, Nat.div_one] at hadmits
    rw [if_pos hadmits]
    exact nofun
  | succ i ih =>
    have hhalf : ∀ j, base / 2 ^ (j + 1) = base / 2 / 2 ^ j := fun j => by
      rw [Nat.div_div_eq_div_mul, Nat.pow_succ, Nat.mul_comm]
    have hnext := hworth 1 (by omega)
    rw [Nat.pow_one] at hnext
    rw [hhalf] at hpos hadmits
    have hbelow : 0 < base / 2 := Nat.lt_of_lt_of_le hpos (Nat.div_le_self _ _)
    split
    · exact nofun
    · rw [findChunk_of_worthwhile hbelow hnext]
      refine ih hpos (fun j hj => ?_) hadmits hbelow hnext
      rw [← hhalf]
      exact hworth (j + 1) (by omega)

/-! ## Taking memory -/

/-- Memory is taken from the newest chunk, or a chunk is added that was found for it. -/
theorem allocate_eq_some (h : a.allocate bytes = some b) :
    (b.used = a.used ∧ b.reset = a.reset) ∨
      ∃ tried, 0 < tried ∧ a.admits (chunkSize (max tried bytes)) = true ∧
        b = { a with chunks := ⟨chunkSize (max tried bytes),
          chunkSize (max tried bytes) - bytes⟩ :: a.chunks } := by
  unfold allocate at h
  split at h
  · left
    split at h
    · cases h
      exact ⟨rfl, rfl⟩
    · rename_i chunk rest hchunks
      cases h
      simp [used, reset, hchunks]
  · split at h
    · cases h
    · rename_i size hfind
      cases h
      obtain ⟨hadmits, tried, htried, rfl⟩ := findChunk_eq_some hfind
      exact .inr ⟨tried, htried, hadmits, rfl⟩

/-- Memory is refused where the newest chunk has no room and no other chunk is found. -/
theorem allocate_eq_none : a.allocate bytes = none ↔
    a.free < bytes ∧ a.findChunk bytes (max (2 * a.newest) (max bytes minChunk)) = none := by
  unfold allocate
  by_cases hroom : bytes ≤ a.free
  · have hserved : ¬ (a.free < bytes ∧
        a.findChunk bytes (max (2 * a.newest) (max bytes minChunk)) = none) := by omega
    rw [if_pos hroom, iff_false_right hserved]
    split <;> exact nofun
  · rw [if_neg hroom, and_iff_right (by omega)]
    split <;> simp [*]

/-! ## An arena that has been reset -/

/-- An arena whose one chunk, of `size` bytes, is free. -/
def keeping (limit size : Nat) : Arena := { limit := some limit, chunks := [⟨size, size⟩] }

@[simp] theorem used_keeping (limit size : Nat) : (keeping limit size).used = size := rfl

/-- An arena with a limit that holds nothing, or one free chunk. -/
inductive AtRest (limit : Nat) : Arena → Prop where
  | empty : AtRest limit { limit := some limit }
  | chunk (n : Nat) (hn : 0 < n) (h : chunkSize n ≤ limit) :
    AtRest limit (keeping limit (chunkSize n))

theorem AtRest.reset (h : a.AtRest limit) : a.reset.AtRest limit := by
  cases h with
  | empty => exact .empty
  | chunk n hn hle => exact .chunk n hn hle

/-- Whatever was taken, one free chunk at most is left after the reset. -/
theorem AtRest.next (h : a.AtRest limit) (hb : a.allocate bytes = some b) :
    b.reset.AtRest limit := by
  have hlimit : a.limit = some limit := by cases h <;> rfl
  rcases allocate_eq_some hb with ⟨-, hsame⟩ | ⟨tried, htried, hadmits, rfl⟩
  · rw [hsame]
    exact h.reset
  · have hle := ((admits_iff hlimit).1 hadmits).2
    rw [reset_cons, hlimit]
    exact .chunk (max tried bytes) (by omega) (by omega)

/-- Where the chunk is too small, one of about twice its size or more has to fit beside it. -/
theorem allocate_keeping (hsize : 0 < size) (hle : size ≤ limit) (hbytes : bytes < 2 ^ 45) :
    (keeping limit size).allocate bytes = none ↔
      size < bytes ∧ limit < size + chunkSize (max (2 * size) (max bytes minChunk)) := by
  have hmin : minChunk = 448 := rfl
  rw [allocate_eq_none]
  refine and_congr_right fun hsmall => ?_
  replace hsmall : size < bytes := hsmall
  show findChunk _ bytes (max (2 * size) (max bytes minChunk)) = none ↔ _
  have hworth : (keeping limit size).worthwhile bytes (max (2 * size) (max bytes minChunk)) = true :=
    (worthwhile_iff rfl).2 (.inl (by omega))
  -- half of it is the chunk that was too small, or less than the least chunk for the request
  have hlast : ¬ (keeping limit size).worthwhile bytes
      (max (2 * size) (max bytes minChunk) / 2) = true := by
    rw [worthwhile_iff rfl, used_keeping]
    omega
  rw [findChunk_of_last (by omega) hworth hlast, Nat.max_eq_left (by omega), admits_iff rfl,
    used_keeping]
  have hsystem : chunkSize (max (2 * size) (max bytes minChunk)) < systemLimit :=
    chunkSize_lt (by omega)
  omega

/-- A request that an empty arena with a small limit can serve from the least chunk that holds it:
halving the usual size of a chunk leads to one that is just large enough. -/
structure Halvable (bytes i : Nat) : Prop where
  large : bytes ≤ minChunk / 2 ^ i
  small : chunkSize (minChunk / 2 ^ i) = chunkSize bytes
  spare : bytes < chunkSize bytes

/-- An empty arena refuses what needs a chunk larger than the limit. -/
theorem allocate_empty (hpos : 0 < bytes) (hbytes : bytes < 2 ^ 46)
    (h : minChunk ≤ bytes ∨ ∃ i, Halvable bytes i) :
    ({ limit := some limit } : Arena).allocate bytes = none ↔ limit < chunkSize bytes := by
  have hmin : minChunk = 448 := rfl
  rw [allocate_eq_none]
  show 0 < bytes ∧ findChunk _ bytes (max 0 (max bytes minChunk)) = none ↔ _
  rw [and_iff_right hpos, Nat.zero_max]
  constructor
  · intro hnone
    refine Nat.lt_of_not_le fun hle => absurd hnone ?_
    have hfirst : chunkSize (max bytes minChunk) ≤ limit →
        findChunk { limit := some limit } bytes (max bytes minChunk) ≠ none := by
      intro hfits
      have hadmits : admits { limit := some limit } (chunkSize (max bytes minChunk)) = true :=
        (admits_iff rfl).2 ⟨chunkSize_lt (by omega), hfits⟩
      rw [findChunk_of_worthwhile (by omega) ((worthwhile_iff rfl).2 (.inl (Nat.le_refl _))),
        Nat.max_eq_left (by omega), if_pos hadmits]
      exact nofun
    rcases h with hlarge | ⟨i, hlarge, hsmall, hspare⟩
    · apply hfirst
      rwa [Nat.max_eq_left hlarge]
    · have hless := Nat.div_le_self minChunk (2 ^ i)
      rw [Nat.max_eq_right (by omega)] at hfirst ⊢
      by_cases hlimit : minChunk ≤ limit
      · exact hfirst (Nat.le_trans (by decide) hlimit)
      · refine findChunk_of_halving (i := i) (by omega) (fun j hj => ?_) ?_
        · have hstep : minChunk / 2 ^ i ≤ minChunk / 2 ^ j :=
            Nat.div_le_div_left (Nat.pow_le_pow_right (by decide) hj) (Nat.two_pow_pos j)
          exact (worthwhile_iff rfl).2 (.inr ⟨by omega, by omega, by omega, rfl⟩)
        · rw [Nat.max_eq_left hlarge, hsmall]
          exact (admits_iff rfl).2 ⟨chunkSize_lt (by omega), hle⟩
  · intro hlimit
    cases hfind : findChunk { limit := some limit } bytes (max bytes minChunk) with
    | none => rfl
    | some size =>
      obtain ⟨hadmits, tried, -, rfl⟩ := findChunk_eq_some hfind
      have hle := ((admits_iff rfl).1 hadmits).2
      have hmono := chunkSize_mono (Nat.le_max_right tried bytes)
      omega

/-- An arena at rest refuses what an empty one with its limit refuses, and also what its chunk is too
small for and leaves no room for. -/
theorem AtRest.allocate_eq_none (ha : a.AtRest limit) (hpos : 0 < bytes) (hbytes : bytes < 2 ^ 45)
    (h : minChunk ≤ bytes ∨ ∃ i, Halvable bytes i) :
    a.allocate bytes = none ↔ limit < chunkSize bytes ∨ 0 < a.used ∧ a.used < bytes ∧
      limit < a.used + chunkSize (max (2 * a.used) (max bytes minChunk)) := by
  cases ha with
  | empty =>
    rw [allocate_empty hpos (by omega) h]
    exact ⟨.inl, fun hcases => hcases.resolve_right fun hused => Nat.lt_irrefl 0 hused.1⟩
  | chunk n hn hle =>
    have hsize : 0 < chunkSize n := Nat.lt_of_lt_of_le hn (le_chunkSize n)
    rw [allocate_keeping hsize hle hbytes, used_keeping, and_iff_right hsize]
    refine ⟨.inr, fun hcases => hcases.elim (fun hlimit => ⟨?_, ?_⟩) id⟩
    · -- a chunk that holds the request was made for as much and fits the limit
      refine Nat.lt_of_not_le fun hholds => ?_
      have hmono := chunkSize_mono hholds
      rw [chunkSize_chunkSize] at hmono
      omega
    · have hmono : chunkSize bytes ≤ chunkSize (max (2 * chunkSize n) (max bytes minChunk)) :=
        chunkSize_mono (by omega)
      omega

end SplitRadix.Scratch.Arena

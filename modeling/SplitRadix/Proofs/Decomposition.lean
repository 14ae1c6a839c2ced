import SplitRadix.Decomposition.Basic
import SplitRadix.Proofs.Word

/-!
# The nodes of a decomposition

Every node of a decomposition is larger than a leaf and lies inside the transform, the sizes are
powers of two if the size of the transform is one, every node starts at a multiple of its size, and
the first one starts where the transform does.

* `mem_postOrder`: size and place of a node.
* `of_mem_postOrder`: what the parts of a node inherit, all nodes have.
* `count_two_pow_lt`: there are fewer nodes than leaves.
* `countWord_eq_parts`: counting in words is counting part by part.
-/

namespace SplitRadix.Decomposition

theorem mem_postOrder {leaf n offset : Nat} {node : Node} (h : node ∈ postOrder leaf n offset) :
    leaf < node.size ∧ node.size ≤ n ∧ offset ≤ node.offset ∧
      node.offset + node.size ≤ offset + n := by
  fun_induction postOrder leaf n offset with
  | case1 => cases h
  | case2 n offset hn first second third fourth fifth =>
    simp only [List.mem_append, List.mem_singleton] at h
    rcases h with ((((h | h) | h) | h) | h) | rfl
    · have := first h; omega
    · have := second h; omega
    · have := third h; omega
    · have := fourth h; omega
    · have := fifth h; omega
    · exact ⟨Nat.lt_of_not_le hn, Nat.le_refl _, Nat.le_refl _, Nat.le_refl _⟩

/-- What holds of the transform, and of the parts of every node of which it holds, holds of every
node. -/
theorem of_mem_postOrder {P : Node → Prop} {leaf n offset : Nat}
    (hparts : ∀ node : Node, leaf < node.size → P node → ∀ part ∈ node.parts, P part)
    (hroot : P ⟨n, offset⟩) {node : Node} (h : node ∈ postOrder leaf n offset) : P node := by
  fun_induction postOrder leaf n offset with
  | case1 => cases h
  | case2 n offset hlt first second third fourth fifth =>
    have part := hparts ⟨n, offset⟩ (Nat.lt_of_not_le hlt) hroot
    simp only [Node.parts, List.forall_mem_cons] at part
    obtain ⟨p1, p2, p3, p4, p5, -⟩ := part
    simp only [List.mem_append, List.mem_singleton] at h
    rcases h with ((((h | h) | h) | h) | h) | rfl
    · exact first p1 h
    · exact second p2 h
    · exact third p3 h
    · exact fourth p4 h
    · exact fifth p5 h
    · exact hroot

/-- A part of a power of two is a power of two, and nothing is left over; or it is empty. -/
theorem two_pow_div (k i : Nat) : 2 ^ k / 2 ^ i = 0 ∨
    i ≤ k ∧ 2 ^ k / 2 ^ i = 2 ^ (k - i) ∧ 2 ^ i * (2 ^ k / 2 ^ i) = 2 ^ k := by
  rcases Nat.lt_or_ge k i with h | h
  · exact .inl (Nat.div_eq_of_lt (Nat.pow_lt_pow_right (by decide) h))
  · exact .inr ⟨h, Nat.pow_div h (by decide), Nat.mul_div_cancel' (Nat.pow_dvd_pow 2 h)⟩

/-- A part starts after some number of parts of its size. -/
theorem part_cases {node part : Node} {k : Nat} (hsize : node.size = 2 ^ k)
    (h : part ∈ node.parts) : part.size = 0 ∨
      ∃ i count, i ≤ k ∧ part.size = 2 ^ (k - i) ∧ part.offset = node.offset + part.size * count := by
  have quarter := two_pow_div k 2
  have eighth := two_pow_div k 3
  rw [← hsize] at quarter eighth
  simp only [Node.parts, List.mem_cons, List.not_mem_nil, or_false] at h
  rcases h with rfl | rfl | rfl | rfl | rfl
  · exact quarter.imp_right fun hq => ⟨2, 0, hq.1, hq.2.1, rfl⟩
  · exact eighth.imp_right fun he => ⟨3, 2, he.1, he.2.1, by dsimp only; omega⟩
  · exact eighth.imp_right fun he => ⟨3, 3, he.1, he.2.1, by dsimp only; omega⟩
  · exact quarter.imp_right fun hq => ⟨2, 2, hq.1, hq.2.1, by dsimp only; omega⟩
  · exact quarter.imp_right fun hq => ⟨2, 3, hq.1, hq.2.1, by dsimp only; omega⟩

theorem size_eq_two_pow {leaf n offset a : Nat} (hn : n = 2 ^ a ∨ n = 0) {node : Node}
    (h : node ∈ postOrder leaf n offset) : ∃ k, k ≤ a ∧ node.size = 2 ^ k := by
  have hsize : (∃ k, k ≤ a ∧ node.size = 2 ^ k) ∨ node.size = 0 := by
    refine of_mem_postOrder (P := fun node => (∃ k, k ≤ a ∧ node.size = 2 ^ k) ∨ node.size = 0)
      (fun node hlt hnode part hpart => ?_) (hn.imp_left fun hn => ⟨a, Nat.le_refl a, hn⟩) h
    obtain ⟨k, hk, hpow⟩ | hzero := hnode
    · obtain hzero | ⟨i, -, hi, hsize, -⟩ := part_cases hpow hpart
      · exact .inr hzero
      · exact .inl ⟨k - i, by omega, hsize⟩
    · omega
  have hlarge := (mem_postOrder h).1
  exact hsize.resolve_right (by omega)

/-- A node starts at a multiple of its size. -/
theorem size_dvd_offset {leaf a : Nat} {node : Node} (h : node ∈ postOrder leaf (2 ^ a) 0) :
    node.size ∣ node.offset := by
  have hplace : ((∃ k, node.size = 2 ^ k) ∧ node.size ∣ node.offset) ∨ node.size = 0 := by
    refine of_mem_postOrder
      (P := fun node => ((∃ k, node.size = 2 ^ k) ∧ node.size ∣ node.offset) ∨ node.size = 0)
      (fun node hlt hnode part hpart => ?_) (.inl ⟨⟨a, rfl⟩, Nat.dvd_zero _⟩) h
    obtain ⟨⟨k, hpow⟩, hdvd⟩ | hzero := hnode
    · obtain hzero | ⟨i, count, hi, hsize, hoffset⟩ := part_cases hpow hpart
      · exact .inr hzero
      · refine .inl ⟨⟨k - i, hsize⟩, ?_⟩
        have hwhole : part.size ∣ node.size := by
          rw [hsize, hpow]
          exact Nat.pow_dvd_pow 2 (Nat.sub_le k i)
        rw [hoffset]
        exact Nat.dvd_add (Nat.dvd_trans hwhole hdvd) (Nat.dvd_mul_right _ count)
    · omega
  have hlarge := (mem_postOrder h).1
  exact (hplace.resolve_right (by omega)).2

/-- A node of a transform of 2^a elements with leaves of 2^b consists of 2^(j + 1) leaves. -/
theorem exists_level {a b offset : Nat} {node : Node}
    (h : node ∈ postOrder (2 ^ b) (2 ^ a) offset) :
    ∃ j, b + j + 1 ≤ a ∧ node.size = 2 ^ (b + j + 1) := by
  have hlarge := (mem_postOrder h).1
  obtain ⟨k, hk, hsize⟩ := size_eq_two_pow (.inl rfl) h
  rw [hsize, Nat.pow_lt_pow_iff_right (by decide)] at hlarge
  refine ⟨k - b - 1, by omega, ?_⟩
  rw [hsize, show b + (k - b - 1) + 1 = k by omega]

/-- The first node starts where the transform starts: it is reached by first parts alone. -/
theorem head_postOrder {leaf n offset : Nat} {node : Node}
    (h : (postOrder leaf n offset).head? = some node) : node.offset = offset := by
  fun_induction postOrder leaf n offset with
  | case1 => cases h
  | case2 n offset hn first second third fourth fifth =>
    simp only [List.append_assoc] at h
    by_cases hq : n / 4 ≤ leaf
    · -- no part is larger than a leaf, so the node itself comes first
      have empty : ∀ m o, m ≤ n / 4 → postOrder leaf m o = [] := fun m o hm => by
        rw [postOrder, if_pos (by omega)]
      rw [empty _ _ (Nat.le_refl _), empty (n / 8) _ (by omega), empty (n / 8) _ (by omega),
        empty _ _ (Nat.le_refl _), empty _ _ (Nat.le_refl _)] at h
      cases h
      rfl
    · have hne : postOrder leaf (n / 4) offset ≠ [] := by
        rw [postOrder, if_neg hq]
        simp
      obtain ⟨head, rest, hcons⟩ := List.exists_cons_of_ne_nil hne
      rw [hcons] at h first
      exact first h

/-! ## How many nodes there are -/

theorem count_of_le {n leaf : Nat} (h : n ≤ leaf) : count n leaf = 0 := by
  rw [count, if_pos h]

theorem count_of_lt {n leaf : Nat} (h : leaf < n) :
    count n leaf = 1 + 3 * count (n / 4) leaf + 2 * count (n / 8) leaf := by
  rw [count, if_neg (by omega)]

/-- A transform whose parts are all leaves is one node. -/
theorem count_of_div_le {n leaf : Nat} (h : leaf < n) (hquarter : n / 4 ≤ leaf) :
    count n leaf = 1 := by
  rw [count_of_lt h, count_of_le hquarter, count_of_le (by omega)]

/-- Two or four leaves make one node. -/
theorem count_two_pow_one (b : Nat) : count (2 ^ (b + 1)) (2 ^ b) = 1 := by
  have hb := Nat.two_pow_pos b
  rw [Nat.pow_succ]
  exact count_of_div_le (by omega) (by omega)

theorem count_two_pow_two (b : Nat) : count (2 ^ (b + 2)) (2 ^ b) = 1 := by
  have hb := Nat.two_pow_pos b
  rw [Nat.pow_add]
  exact count_of_div_le (by omega) (by omega)

theorem count_two_pow_add_three (b j : Nat) : count (2 ^ (b + (j + 3))) (2 ^ b) =
    1 + 3 * count (2 ^ (b + (j + 1))) (2 ^ b) + 2 * count (2 ^ (b + j)) (2 ^ b) := by
  have quarter : 2 ^ (b + (j + 3)) / 4 = 2 ^ (b + (j + 1)) := by
    rw [show b + (j + 3) = b + (j + 1) + 2 by omega, Nat.pow_add]; omega
  have eighth : 2 ^ (b + (j + 3)) / 8 = 2 ^ (b + j) := by
    rw [show b + (j + 3) = b + j + 3 by omega, Nat.pow_add]; omega
  have hlt : ¬ 2 ^ (b + (j + 3)) ≤ 2 ^ b := by
    rw [Nat.pow_le_pow_iff_right (by decide)]; omega
  rw [count_of_lt (Nat.lt_of_not_le hlt), quarter, eighth]

/-- A transform of 2^j leaves has fewer than 2^j nodes. -/
theorem count_two_pow_lt (b j : Nat) : count (2 ^ (b + j)) (2 ^ b) < 2 ^ j := by
  induction j using Nat.strongRecOn with
  | ind j ih =>
    rcases j with _ | _ | _ | j
    · rw [Nat.add_zero, count_of_le (Nat.le_refl _)]; decide
    · rw [count_two_pow_one]; decide
    · rw [count_two_pow_two]; decide
    · have h1 := ih (j + 1) (by omega)
      have h0 := ih j (by omega)
      rw [Nat.pow_succ] at h1
      rw [count_two_pow_add_three, show 2 ^ (j + 3) = 2 ^ j * 8 from Nat.pow_add 2 j 3]
      omega

theorem count_pos {n leaf : Nat} (h : leaf < n) : 0 < count n leaf := by
  rw [count_of_lt h]
  omega

/-- There are at most a third more nodes than elements. What is over is left to the parts, so that it
pays for the node itself. -/
theorem count_le {n : Nat} (leaf : Nat) (h : 0 < n) : 3 * count n leaf + 1 ≤ 4 * n := by
  induction n using Nat.strongRecOn with
  | ind n ih =>
    by_cases hle : n ≤ leaf
    · rw [count_of_le hle]
      omega
    · rw [count_of_lt (Nat.lt_of_not_le hle)]
      rcases Nat.eq_zero_or_pos (n / 4) with hquarter | hquarter
      · rw [count_of_le (by omega), count_of_le (by omega)]
        omega
      · have := ih (n / 4) (by omega) hquarter
        rcases Nat.eq_zero_or_pos (n / 8) with heighth | heighth
        · rw [@count_of_le (n / 8) _ (by omega)]
          omega
        · have := ih (n / 8) (by omega) heighth
          omega

theorem countWord_of_lt {n : Nat} (leaf : Nat) (h3 : 3 * n < 2 ^ 64) :
    countWord n leaf = .ok (count n leaf) := by
  unfold countWord
  split
  · rename_i h
    rw [count, if_pos h]; rfl
  · rw [Word.mul_of_lt h3]; rfl

theorem partOffsets_eq_ok {node : Node} (h3 : 3 * node.size < 2 ^ 64)
    (ho : node.offset + node.size < 2 ^ 64) :
    node.partOffsets = .ok (node.offset, node.offset + node.size / 4,
      node.offset + node.size / 4 + node.size / 8, node.offset + node.size / 2,
      node.offset + 3 * node.size / 4) := by
  unfold Node.partOffsets
  refine exceptBind_eq_ok.2 ⟨_, Word.add_of_lt (by omega), ?_⟩
  refine exceptBind_eq_ok.2 ⟨_, Word.add_of_lt (by omega), ?_⟩
  refine exceptBind_eq_ok.2 ⟨_, Word.add_of_lt (by omega), ?_⟩
  refine exceptBind_eq_ok.2 ⟨_, Word.mul_of_lt h3, ?_⟩
  exact exceptBind_eq_ok.2 ⟨_, Word.add_of_lt (by omega), rfl⟩

/-- The parts of a node are computed without leaving a word. -/
theorem split_eq_ok {node : Node} (h3 : 3 * node.size < 2 ^ 64)
    (ho : node.offset + node.size < 2 ^ 64) : node.split = .ok node.parts :=
  exceptBind_eq_ok.2 ⟨_, partOffsets_eq_ok h3 ho, rfl⟩

/-- The count in words is that of the parts, in words too, and one more. It leaves the word exactly
where the parts do, which is why it is enough to look at the largest node. -/
theorem countWord_eq_parts {n leaf : Nat} (hword : n < 2 ^ 64) (h : leaf < n) :
    countWord n leaf = (do
      let parts ← (Node.mk n 0).split
      let counts ← parts.mapM fun part => countWord part.size leaf
      let sum ← counts.foldlM Word.add 0
      Word.add 1 sum) := by
  by_cases h3 : 3 * n < 2 ^ 64
  · have hcounts : (Node.mk n 0).parts.mapM (fun part => countWord part.size leaf) =
        .ok ((Node.mk n 0).parts.map fun part => count part.size leaf) := by
      refine exceptMapM_of_ok fun part hpart => countWord_of_lt leaf ?_
      simp only [Node.parts, List.mem_cons, List.not_mem_nil, or_false] at hpart
      rcases hpart with rfl | rfl | rfl | rfl | rfl <;> dsimp only <;> omega
    have hle := count_le leaf (show 0 < n by omega)
    have hcount := count_of_lt h
    have hsum : ((Node.mk n 0).parts.map fun part => count part.size leaf).foldlM Word.add 0 =
        .ok (count n leaf - 1) := by
      simp only [Node.parts, List.map_cons, List.map_nil, List.foldlM_cons, List.foldlM_nil]
      refine exceptBind_eq_ok.2 ⟨_, Word.add_of_lt (by omega), ?_⟩
      refine exceptBind_eq_ok.2 ⟨_, Word.add_of_lt (by omega), ?_⟩
      refine exceptBind_eq_ok.2 ⟨_, Word.add_of_lt (by omega), ?_⟩
      refine exceptBind_eq_ok.2 ⟨_, Word.add_of_lt (by omega), ?_⟩
      refine exceptBind_eq_ok.2 ⟨_, Word.add_of_lt (by omega), ?_⟩
      exact congrArg Except.ok (by omega)
    rw [countWord_of_lt leaf h3]
    symm
    refine exceptBind_eq_ok.2 ⟨_, split_eq_ok h3 (by dsimp only; omega), ?_⟩
    refine exceptBind_eq_ok.2 ⟨_, hcounts, exceptBind_eq_ok.2 ⟨_, hsum, ?_⟩⟩
    rw [Word.add_of_lt (by omega)]
    exact congrArg Except.ok (by omega)
  · -- three times the size is what leaves the word first, in the count and in the split
    have hmul : Word.mul 3 n = .error .mulOverflow := if_neg h3
    have hsplit : (Node.mk n 0).split = .error .mulOverflow := by
      simp (disch := omega) only [Node.split, Node.partOffsets, Word.add_of_lt, hmul, bind,
        Except.bind]
    rw [hsplit, countWord, if_neg (Nat.not_le.2 h), hmul]
    rfl

end SplitRadix.Decomposition

import Mathlib.Order.CompletePartialOrder
import Mathlib.Order.Interval.Set.Disjoint
import SplitRadix.Proofs.Filling

/-!
# How the nodes of a decomposition lie

The parts of a node lie side by side inside it, so any two nodes of a decomposition are disjoint, or
one of them contains the other. In the second case the larger one comes later in the list: a node is
never worked on before what it consists of.

* `Node.elements`: the elements of a node.
* `Nested`: nodes that are disjoint or contain each other, the larger ones later.
* `nested_postOrder`: the post-order list is nested, for any size.
* `decomposition_is_nested`: size, place and order of the nodes of a transform.
-/

namespace SplitRadix

/-- The elements of a node. -/
def Node.elements (node : Node) : Set Nat := Set.Ico node.offset (node.offset + node.size)

theorem Node.disjoint_elements {a b : Node} (h : a.offset + a.size ≤ b.offset) :
    Disjoint a.elements b.elements :=
  Set.disjoint_left.2 fun _ ha hb => Nat.not_lt.2 (Nat.le_trans h hb.1) ha.2

/-- A smaller node between the ends of another one lies strictly inside it. -/
theorem Node.elements_ssubset {a b : Node} (hlow : b.offset ≤ a.offset)
    (hhigh : a.offset + a.size ≤ b.offset + b.size) (hsize : a.size < b.size) :
    a.elements ⊂ b.elements := by
  refine (Set.ssubset_iff_of_subset (Set.Ico_subset_Ico hlow hhigh)).2 ?_
  by_cases hfirst : a.offset = b.offset
  · refine ⟨b.offset + a.size, ⟨by omega, by omega⟩, fun hmem => ?_⟩
    have := hmem.2
    omega
  · refine ⟨b.offset, ⟨by omega, by omega⟩, fun hmem => ?_⟩
    have := hmem.1
    omega

namespace Decomposition

/-- Nodes between `low` and `high` of which any two are disjoint, or the later one contains the
earlier one. -/
structure Nested (low high : Nat) (nodes : List Node) : Prop where
  inside : ∀ node ∈ nodes, low ≤ node.offset ∧ node.offset + node.size ≤ high
  ordered : nodes.Pairwise fun a b => Disjoint a.elements b.elements ∨ a.elements ⊂ b.elements

namespace Nested

variable {low high middle start : Nat} {first second : List Node}

theorem nil (low high : Nat) : Nested low high [] := ⟨nofun, .nil⟩

/-- Lists side by side. -/
theorem append (h : Nested low middle first) (h' : Nested start high second) (hlow : low ≤ start)
    (hgap : middle ≤ start) (hhigh : middle ≤ high) : Nested low high (first ++ second) where
  inside node hmem := by
    rcases List.mem_append.1 hmem with hmem | hmem
    · have := h.inside node hmem
      omega
    · have := h'.inside node hmem
      omega
  ordered := by
    refine List.pairwise_append.2 ⟨h.ordered, h'.ordered, fun a ha b hb => .inl ?_⟩
    have hleft := (h.inside a ha).2
    have hright := (h'.inside b hb).1
    exact Node.disjoint_elements (by omega)

/-- A node above all others. -/
theorem concat {n offset : Nat} (h : Nested offset high first) (hhigh : high ≤ offset + n)
    (hsize : ∀ node ∈ first, node.size < n) :
    Nested offset (offset + n) (first ++ [⟨n, offset⟩]) where
  inside node hmem := by
    rcases List.mem_append.1 hmem with hmem | hmem
    · have := h.inside node hmem
      omega
    · cases List.mem_singleton.1 hmem
      exact ⟨Nat.le_refl _, Nat.le_refl _⟩
  ordered := by
    refine List.pairwise_append.2 ⟨h.ordered, List.pairwise_singleton _ _, fun a ha b hb => .inr ?_⟩
    cases List.mem_singleton.1 hb
    obtain ⟨hlow, hend⟩ := h.inside a ha
    exact Node.elements_ssubset hlow (Nat.le_trans hend hhigh) (hsize a ha)

/-- No node with elements is listed twice. -/
theorem nodup (h : Nested low high first) (hpos : ∀ node ∈ first, 0 < node.size) :
    first.Nodup := by
  refine h.ordered.imp_of_mem fun {a b} ha _ hab heq => ?_
  subst heq
  rcases hab with hdisjoint | hinside
  · have hmem : a.offset ∈ a.elements := ⟨Nat.le_refl _, Nat.lt_add_of_pos_right (hpos a ha)⟩
    exact Set.disjoint_left.1 hdisjoint hmem hmem
  · exact ssubset_irrefl _ hinside

end Nested

/-- The post-order list is nested, whether or not the size can be divided evenly. -/
theorem nested_postOrder (leaf n offset : Nat) :
    Nested offset (offset + n) (postOrder leaf n offset) := by
  fun_induction postOrder leaf n offset with
  | case1 n offset _ => exact .nil _ _
  | case2 n offset hlt first second third fourth fifth =>
    have hsecond := first.append second (by omega) (by omega) (by omega)
    have hthird := hsecond.append third (by omega) (by omega) (by omega)
    have hfourth := hthird.append fourth (by omega) (by omega) (by omega)
    have hfifth := hfourth.append fifth (by omega) (by omega) (by omega)
    refine hfifth.concat (by omega) fun node hmem => ?_
    have small : ∀ m start, m < n → node ∈ postOrder leaf m start → node.size < n :=
      fun m start hm hnode => Nat.lt_of_le_of_lt (mem_postOrder hnode).2.1 hm
    simp only [List.mem_append] at hmem
    rcases hmem with (((hmem | hmem) | hmem) | hmem) | hmem
    · exact small _ _ (by omega) hmem
    · exact small _ _ (by omega) hmem
    · exact small _ _ (by omega) hmem
    · exact small _ _ (by omega) hmem
    · exact small _ _ (by omega) hmem

/-- The transform itself comes last. -/
theorem getLast?_postOrder {leaf n : Nat} (h : leaf < n) (offset : Nat) :
    (postOrder leaf n offset).getLast? = some ⟨n, offset⟩ := by
  rw [postOrder_eq_parts h, List.getLast?_concat]

/-- A transform of a power of two has a decomposition into nodes of two leaves or more. Their sizes are
powers of two, they start at multiples of their sizes and end inside the transform. None is listed
twice. Any two are disjoint, or the later one contains the earlier one and more. The first one starts
where the transform does, and the last one is the transform. -/
theorem decomposition_is_nested {n leaf : Nat} (hn : Word.isPowerOfTwo n = true)
    (hleaf : Word.isPowerOfTwo leaf = true) (h2 : 2 ≤ leaf) (hlt : leaf < n)
    (h3 : 3 * n < 2 ^ 64) :
    ∃ nodes, elaborate n leaf = .ok nodes ∧
      (∀ node ∈ nodes, Word.isPowerOfTwo node.size = true ∧ 2 * leaf ≤ node.size ∧
        node.size ≤ n ∧ node.size ∣ node.offset ∧ node.offset + node.size ≤ n) ∧
      nodes.Nodup ∧
      (nodes.Pairwise fun a b => Disjoint a.elements b.elements ∨ a.elements ⊂ b.elements) ∧
      nodes.head?.map Node.offset = some 0 ∧ nodes.getLast? = some ⟨n, 0⟩ := by
  obtain ⟨a, rfl⟩ := Word.isPowerOfTwo_iff.1 hn
  obtain ⟨b, rfl⟩ := Word.isPowerOfTwo_iff.1 hleaf
  have hnested := nested_postOrder (2 ^ b) (2 ^ a) 0
  have hlast := getLast?_postOrder hlt 0
  refine ⟨_, elaborate_of_lt _ h3, fun node hnode => ?_, ?_, hnested.ordered, ?_, hlast⟩
  · obtain ⟨-, hle, -, hend⟩ := mem_postOrder hnode
    obtain ⟨j, -, hsize⟩ := exists_level hnode
    refine ⟨Word.isPowerOfTwo_iff.2 ⟨_, hsize⟩, ?_, hle, size_dvd_offset hnode, by omega⟩
    have hpow : 2 ^ (b + j + 1) = 2 * 2 ^ b * 2 ^ j := by
      rw [show b + j + 1 = 1 + b + j by omega, Nat.pow_add, Nat.pow_add]
    rw [hsize, hpow]
    exact Nat.le_mul_of_pos_right _ (Nat.two_pow_pos j)
  · exact hnested.nodup fun node hnode => by have := (mem_postOrder hnode).1; omega
  · obtain ⟨first, hfirst⟩ := Option.isSome_iff_exists.1
      (List.isSome_head?.2 (List.ne_nil_of_mem (List.mem_of_getLast? hlast)))
    rw [hfirst, Option.map_some, head_postOrder hfirst]

/-- Among the nodes of 128 elements with leaves of 8 are eighths. -/
theorem decomposition_is_nested_of_128 :
    Word.isPowerOfTwo 128 = true ∧ Word.isPowerOfTwo 8 = true ∧ 2 ≤ 8 ∧ 8 < 128 ∧
    3 * 128 < 2 ^ 64 ∧
    ∃ nodes, elaborate 128 8 = .ok nodes ∧ nodes.Nodup ∧
      (nodes.Pairwise fun a b => Disjoint a.elements b.elements ∨ a.elements ⊂ b.elements) ∧
      nodes = [⟨32, 0⟩, ⟨16, 32⟩, ⟨16, 48⟩, ⟨32, 64⟩, ⟨32, 96⟩, ⟨128, 0⟩] := by
  have hn : Word.isPowerOfTwo 128 = true := by decide +kernel
  have hleaf : Word.isPowerOfTwo 8 = true := by decide +kernel
  obtain ⟨nodes, hnodes, -, hnodup, hordered, -⟩ :=
    decomposition_is_nested hn hleaf (by decide) (by decide) (by decide)
  have hlist : (elaborate 128 8).toOption =
      some [⟨32, 0⟩, ⟨16, 32⟩, ⟨16, 48⟩, ⟨32, 64⟩, ⟨32, 96⟩, ⟨128, 0⟩] := by decide +kernel
  rw [hnodes] at hlist
  exact ⟨hn, hleaf, by decide, by decide, by decide, nodes, hnodes, hnodup, hordered,
    Option.some.inj hlist⟩

end Decomposition

end SplitRadix

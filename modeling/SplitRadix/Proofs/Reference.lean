import SplitRadix.Proofs.Ranges

/-!
# Reference parameters stay in range

With reference parameters every number of a routine fits its field: the loop bounds, and the twiddle
positions from one node to the next.

* `make_of_le`: the loop bounds fit 32 bits, so the schedule is the exact one.
* `IsReference.displacement`: every node has a twiddle level, and where it starts.
* `twiddlesFit_reference`: the twiddle positions lie near each other.
-/

namespace SplitRadix

namespace Leaf

open Transform (IterationCounts)

/-- The loop bounds of a transform of at most 2^25 leaves fit 32 bits. -/
theorem Schedule.make_of_le (n : Nat) {leaves : Nat} (h : leaves ≤ 2 ^ 25) :
    let counts := IterationCounts.ofLeaves leaves
    Schedule.make n counts = .ok (.exact n counts.primary counts.secondary) := by
  intro counts
  have hprimary : counts.primary ≤ 2 ^ 25 := by
    show (leaves / 3 + 1) / 2 ≤ 2 ^ 25
    omega
  have hsecondary : counts.secondary ≤ 2 ^ 25 := by
    show (leaves / 3 + if 1 < leaves % 3 then 1 else 0) / 2 ≤ 2 ^ 25
    split <;> omega
  have hlow : ∀ {k : Nat}, k ≤ 2 ^ 25 → Word.low32 k = k := fun hk => Nat.mod_eq_of_lt (by omega)
  have hfit : counts.Fit := by
    unfold IterationCounts.Fit
    rw [hlow hprimary, hlow hsecondary]
    omega
  rw [make_of_fit n hfit, hlow hprimary, hlow hsecondary]

end Leaf

namespace Transform

/-- The parameters have the reference table for leaves of 2^b and a size of 2^a elements. -/
structure Parameters.IsReference (p : Parameters) (a b : Nat) : Prop where
  leaf : p.leaf = 2 ^ b
  table : p.table = referenceTable (2 ^ b) (a - b)
  small : a ≤ 26

/-- A subtransform of 2^(j + 1) leaves has its twiddles at the start of level `j`. -/
theorem Parameters.IsReference.displacement {p : Parameters} {a b j : Nat}
    (hp : p.IsReference a b) (hj : b + j + 1 ≤ a) :
    p.displacement (2 ^ (b + j + 1)) = .ok (some (8 * levelStart (2 ^ b) j)) ∧
      8 * levelStart (2 ^ b) j ≤ 2 ^ 29 := by
  have hstart := levelStart_le (2 ^ b) j
  have hsize : 2 * 2 ^ b * 2 ^ j = 2 ^ (b + j + 1) := by
    rw [Nat.pow_succ, Nat.pow_add]
    ac_rfl
  have hmax : 2 ^ (b + j + 1) ≤ 2 ^ 26 :=
    Nat.pow_le_pow_right (by decide) (Nat.le_trans hj hp.small)
  have hentry : p.table[j]? = some (levelStart (2 ^ b) j) := by
    rw [hp.table]
    exact getElem?_referenceTable (by omega)
  rw [displacement_two_pow hp.leaf, hentry]
  dsimp only
  rw [Word.mul_of_lt (by omega)]
  exact ⟨rfl, by omega⟩

end Transform

namespace CallChain

open Transform (Parameters)

/-- Every node of a transform with reference parameters has its twiddles. -/
theorem lut_of_mem_postOrder {params : Parameters} {a b : Nat} (hp : params.IsReference a b)
    {node : Node} (hnode : node ∈ Decomposition.postOrder (2 ^ b) (2 ^ a) 0) :
    ∃ lut ≤ 2 ^ 29, params.displacement node.size = .ok (some lut) := by
  obtain ⟨j, hj, hsize⟩ := Decomposition.exists_level hnode
  obtain ⟨hdisplacement, hlut⟩ := hp.displacement hj
  exact ⟨_, hlut, by rw [hsize, hdisplacement]⟩

theorem twiddlesFitFrom_of_le {params : Parameters} {nodes : List Node}
    (h : ∀ node ∈ nodes, ∃ lut ≤ 2 ^ 29, params.displacement node.size = .ok (some lut))
    {before : Nat} (hbefore : before ≤ 2 ^ 29) : TwiddlesFitFrom params before nodes := by
  have signed : ∀ {n : Nat}, n ≤ 2 ^ 29 → Word.toSigned n = n := fun hn => if_pos (by omega)
  induction nodes generalizing before with
  | nil => trivial
  | cons node rest ih =>
    obtain ⟨lut, hlut, hd⟩ := h node List.mem_cons_self
    refine ⟨lut, hd, ?_, ih (fun n hn => h n (List.mem_cons_of_mem _ hn)) hlut⟩
    unfold IsImmediate
    rw [signed hlut, signed hbefore]
    omega

/-- With reference parameters the twiddle positions fit. -/
theorem twiddlesFit_reference {params : Parameters} {a b : Nat} (hp : params.IsReference a b)
    (hsize : params.size = 2 ^ a) : params.TwiddlesFit := by
  unfold Parameters.TwiddlesFit
  rw [hp.leaf, hsize]
  exact twiddlesFitFrom_of_le (fun _ hnode => lut_of_mem_postOrder hp hnode) (by decide)

end CallChain

end SplitRadix

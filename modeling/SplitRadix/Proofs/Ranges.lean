import SplitRadix.Leaf.Schedule
import SplitRadix.Proofs.CallChain
import SplitRadix.Proofs.Encoding

/-!
# The numbers of a routine

The largest transform has 2^26 elements. Up to there the offsets of the leaf passes, the steps of the
output position and the shifts of the size fit their fields. Two things are up to the plan: whether
its iteration counts give loop bounds of 32 bits, and whether the twiddle positions of consecutive
nodes are near enough to each other for an addition.

* `patchValues_of_le`: the offsets fit signed 32-bit fields.
* `IterationCounts.Fit`, `fit_of_make`, `make_of_fit`: which counts have a schedule.
* `TwiddlesFit`, `script_supported`: which tables have a call chain, and how the others fail.
-/

namespace SplitRadix

namespace Leaf

namespace OffsetOrder

@[simp] theorem length_elements (order : OffsetOrder) (n : Nat) : (order.elements n).length = 8 := by
  cases order <;> rfl

theorem four_mul_elements_le {order : OffsetOrder} {n element : Nat}
    (h : element ∈ order.elements n) : 4 * element ≤ 7 * n := by
  cases order <;> simp only [elements, List.mem_cons, List.not_mem_nil, or_false] at h <;> omega

/-- The offsets of a transform of at most 2^26 elements fit signed 32-bit fields. -/
theorem patchValues_of_le (order : OffsetOrder) {n : Nat} (h : n ≤ 2 ^ 26) :
    ∃ patches, order.patchValues n = .ok patches ∧ patches.length = 8 ∧
      ∀ value ∈ patches, value.toNat < 2 ^ 31 := by
  refine ⟨(order.elements n).map fun element => UInt32.ofNat (4 * element), ?_, by simp, ?_⟩
  · have helements : order.elementsWord n = .ok (order.elements n) := by
      unfold elementsWord
      rw [Word.mul_of_lt (by omega)]
      rfl
    unfold patchValues
    rw [helements]
    refine exceptMapM_of_ok fun element he => ?_
    have := four_mul_elements_le he
    rw [Word.mul_of_lt (by omega)]
    rfl
  · intro value hv
    obtain ⟨element, he, rfl⟩ := List.mem_map.1 hv
    have := four_mul_elements_le he
    rw [UInt32.toNat_ofNat']
    omega

end OffsetOrder

end Leaf

/-- The loop bounds that come from the counts fit 32 bits. The counts are taken modulo 2^32 first. -/
def Transform.IterationCounts.Fit (counts : Transform.IterationCounts) : Prop :=
  Word.low32 counts.primary + 2 * Word.low32 counts.secondary + 1 < 2 ^ 30

instance (counts : Transform.IterationCounts) : Decidable counts.Fit :=
  inferInstanceAs (Decidable (_ < _))

namespace Leaf

open Transform (IterationCounts)

theorem mul32_eq_ok {a b c : Nat} : Word.mul32 a b = .ok c ↔ a * b = c ∧ a * b < 2 ^ 32 :=
  Word.fit_eq_ok

theorem add32_eq_ok {a b c : Nat} : Word.add32 a b = .ok c ↔ a + b = c ∧ a + b < 2 ^ 32 :=
  Word.fit_eq_ok

theorem Schedule.fit_of_make {n : Nat} {counts : IterationCounts} {schedule : Schedule}
    (h : Schedule.make n counts = .ok schedule) : counts.Fit := by
  unfold Schedule.make at h
  unfold IterationCounts.Fit
  obtain ⟨initial, hinitial, h⟩ := exceptBind_eq_ok.1 h
  obtain ⟨secondary, hsecondary, h⟩ := exceptBind_eq_ok.1 h
  obtain ⟨rfl, -⟩ := mul32_eq_ok.1 hinitial
  obtain ⟨rfl, -⟩ := mul32_eq_ok.1 hsecondary
  split at h
  · obtain ⟨bound, hbound, -⟩ := exceptBind_eq_ok.1 h
    have := (add32_eq_ok.1 hbound).2
    omega
  · split at h
    · obtain ⟨odd, hodd, h⟩ := exceptBind_eq_ok.1 h
      obtain ⟨mixed, hmixed, h⟩ := exceptBind_eq_ok.1 h
      obtain ⟨bound, hbound, -⟩ := exceptBind_eq_ok.1 h
      obtain ⟨rfl, -⟩ := add32_eq_ok.1 hodd
      obtain ⟨rfl, -⟩ := add32_eq_ok.1 hmixed
      have := (add32_eq_ok.1 hbound).2
      omega
    · obtain ⟨mixed, hmixed, h⟩ := exceptBind_eq_ok.1 h
      obtain ⟨odd, hodd, h⟩ := exceptBind_eq_ok.1 h
      obtain ⟨bound, hbound, -⟩ := exceptBind_eq_ok.1 h
      obtain ⟨rfl, -⟩ := add32_eq_ok.1 hmixed
      obtain ⟨rfl, -⟩ := add32_eq_ok.1 hodd
      have := (add32_eq_ok.1 hbound).2
      omega

/-- The schedule for `primary` and `secondary` blocks, with loop bounds of any length. -/
def Schedule.exact (n primary secondary : Nat) : Schedule :=
  let odd := 4 * primary + 4 * secondary
  let bound := odd + 4 + 4 * secondary
  if 4 * secondary = 0 then
    ⟨4 * primary, [.opening, if isOddSize n then .oddEven else .evenOdd], 4 * primary + 4⟩
  else if isOddSize n then
    ⟨4 * primary, [.opening, .oddOdd odd, .oddEven, .closing bound], bound⟩
  else
    ⟨4 * primary, [.opening, .evenOdd, .oddOdd (odd + 4), .closing bound], bound⟩

theorem Schedule.final_exact (n primary secondary : Nat) :
    (exact n primary secondary).final = 4 * (primary + 1 + 2 * secondary) := by
  unfold exact
  split
  · dsimp only
    omega
  · split <;> dsimp only <;> omega

theorem Schedule.make_of_fit (n : Nat) {counts : IterationCounts} (h : counts.Fit) :
    Schedule.make n counts =
      .ok (.exact n (Word.low32 counts.primary) (Word.low32 counts.secondary)) := by
  have add : ∀ {a b : Nat}, a + b < 2 ^ 32 → Word.add32 a b = .ok (a + b) :=
    fun hlt => add32_eq_ok.2 ⟨rfl, hlt⟩
  have mul : ∀ {a : Nat}, 4 * a < 2 ^ 32 → Word.mul32 4 a = .ok (4 * a) :=
    fun hlt => mul32_eq_ok.2 ⟨rfl, hlt⟩
  unfold IterationCounts.Fit at h
  unfold Schedule.make Schedule.exact
  generalize Word.low32 counts.primary = p, Word.low32 counts.secondary = q at h ⊢
  refine exceptBind_eq_ok.2 ⟨_, mul (by omega), exceptBind_eq_ok.2 ⟨_, mul (by omega), ?_⟩⟩
  split
  · exact exceptBind_eq_ok.2 ⟨_, add (by omega), rfl⟩
  · split
    · refine exceptBind_eq_ok.2 ⟨_, add (by omega), exceptBind_eq_ok.2 ⟨_, add (by omega), ?_⟩⟩
      exact exceptBind_eq_ok.2 ⟨_, add (by omega), rfl⟩
    · refine exceptBind_eq_ok.2 ⟨_, add (by omega), exceptBind_eq_ok.2 ⟨_, add (by omega), ?_⟩⟩
      rw [Nat.add_right_comm (4 * p) 4]
      exact exceptBind_eq_ok.2 ⟨_, add (by omega), rfl⟩

end Leaf

namespace CallChain

open Transform (Parameters)

variable {before : Registers} {node : Node} {leaf lut k : Nat}

/-! ## Registers along a chain -/

/-- The registers are what they can be along the chain of a supported transform. -/
structure Registers.IsNear (r : Registers) : Prop where
  offset : r.offset < 2 ^ 26
  size : r.size = 0 ∨ ∃ k ≤ 26, r.size = 2 ^ k

/-- Whether the changes of a node fit is a question of its twiddle position only. -/
theorem Registers.IsNear.fits (h : before.IsNear) (hsize : node.size ≤ 2 ^ 26)
    (hoffset : node.offset < 2 ^ 26) (hlut : IsImmediate (lutDelta before lut)) :
    Fits before node lut := by
  have signed : ∀ {n : Nat}, n ≤ 2 ^ 26 → Word.toSigned n = n := fun hn => if_pos (by omega)
  have hbefore := h.offset
  refine ⟨?_, hlut⟩
  unfold IsImmediate outputDelta
  rw [signed hsize, @signed node.offset (by omega), @signed before.offset (by omega)]
  split <;> omega

/-- The size is never shifted by nothing, nor by more than 26 bits. -/
theorem Registers.IsNear.shift (h : before.IsNear) (h0 : before.size ≠ 0)
    (hsize : node.size = 2 ^ k) (hk : k ≤ 26) (hne : node.size ≠ before.size) :
    sizeDelta before node ≠ 0 ∧ (sizeDelta before node).natAbs ≤ 31 := by
  rcases h.size with hzero | ⟨m, hm, hbefore⟩
  · exact absurd hzero h0
  · have hkm : k ≠ m := fun heq => hne (by rw [hsize, hbefore, heq])
    unfold sizeDelta
    rw [hsize, hbefore, Word.trailingZeros_two_pow, Word.trailingZeros_two_pow]
    omega

theorem Registers.IsNear.inRange (h : before.IsNear) (hsize : node.size = 2 ^ k) (hk : k ≤ 26)
    (base bound : Nat) {p : Target.Primitive} (hp : some p ∈ changes leaf before node lut) :
    Machine.InRange base bound p := by
  have added : ∀ {role : Target.Role} {delta : Int}, some p = addition role delta →
      Machine.InRange base bound p := by
    intro role delta hadd
    unfold addition at hadd
    split at hadd <;> cases hadd
    trivial
  unfold changes at hp
  rcases List.mem_append.1 hp with hp | hp
  · split at hp
    · cases List.mem_singleton.1 hp
      trivial
    · rename_i h0
      rcases List.mem_cons.1 hp with hadd | hshift
      · exact added hadd
      · have hshift := List.mem_singleton.1 hshift
        unfold resizing at hshift
        split at hshift
        · rename_i hc
          cases hshift
          exact h.shift h0 hsize hk hc.2
        · cases hshift
  · exact added (List.mem_singleton.1 hp)

theorem Registers.IsNear.atCall (h : before.IsNear) (hsize : node.size = 2 ^ k) (hk : k ≤ 26)
    (hoffset : node.offset < 2 ^ 26) : (before.atCall leaf node lut).IsNear where
  offset := hoffset
  size := by
    show (if leaf < node.size then node.size else before.size) = 0 ∨
      ∃ k ≤ 26, (if leaf < node.size then node.size else before.size) = 2 ^ k
    split
    · exact .inr ⟨k, hk, hsize⟩
    · exact h.size

/-- Every node of a supported transform lies near. -/
theorem near_of_mem_postOrder {a b : Nat} (ha : a ≤ 26)
    (hnode : node ∈ Decomposition.postOrder (2 ^ b) (2 ^ a) 0) :
    ∃ k ≤ 26, node.size = 2 ^ k ∧ node.offset < 2 ^ 26 := by
  have hend := (Decomposition.mem_postOrder hnode).2.2.2
  obtain ⟨j, hj, hsize⟩ := Decomposition.exists_level hnode
  have hmax : 2 ^ a ≤ 2 ^ 26 := Nat.pow_le_pow_right (by decide) ha
  have hpos := Nat.two_pow_pos (b + j + 1)
  exact ⟨b + j + 1, Nat.le_trans hj ha, hsize, by omega⟩

/-! ## Twiddle positions along a chain -/

/-- From a twiddle position of `before` on, every node has a twiddle position, and an addition leads
from each to the next. -/
def TwiddlesFitFrom (params : Parameters) : Nat → List Node → Prop
  | _, [] => True
  | before, node :: rest => ∃ lut, params.displacement node.size = .ok (some lut) ∧
    IsImmediate (Word.toSigned lut - Word.toSigned before) ∧ TwiddlesFitFrom params lut rest

theorem twiddlesFitFrom_cons {params : Parameters} {before : Nat} {rest : List Node}
    (hd : params.displacement node.size = .ok (some lut)) :
    TwiddlesFitFrom params before (node :: rest) ↔
      IsImmediate (Word.toSigned lut - Word.toSigned before) ∧ TwiddlesFitFrom params lut rest := by
  constructor
  · intro h
    obtain ⟨found, hfound, h⟩ := h
    cases hd.symm.trans hfound
    exact h
  · exact fun h => ⟨lut, hd, h⟩

instance decidableTwiddlesFitFrom (params : Parameters) :
    (before : Nat) → (nodes : List Node) → Decidable (TwiddlesFitFrom params before nodes)
  | _, [] => isTrue trivial
  | before, node :: rest =>
    match h : params.displacement node.size with
    | .ok (some lut) =>
      have := decidableTwiddlesFitFrom params lut rest
      decidable_of_iff _ (@twiddlesFitFrom_cons node lut params before rest h).symm
    | .ok none => isFalse fun ⟨_, hd, _⟩ => nomatch h.symm.trans hd
    | .error _ => isFalse fun ⟨_, hd, _⟩ => nomatch h.symm.trans hd

/-- A chain fails in this way because its twiddle positions do not fit. -/
def Broken (params : Parameters) (nodes : List Node) (f : Failure GenerateError) : Prop :=
  ¬ TwiddlesFitFrom params 0 nodes ∧
    ((∃ x, f = .fault x) ∨ ∃ cause, f = .error (.encoding cause))

/-- The chain of a supported transform is completed if and only if the twiddle positions fit. All its
primitives can be encoded if the base cases are within reach. -/
theorem script_supported {params : Parameters} {a b : Nat} (ha : a ≤ 26) {nodes : List Node}
    (hnodes : beforeSentinel nodes = Decomposition.postOrder (2 ^ b) (2 ^ a) 0)
    (hentry : ∀ node ∈ beforeSentinel nodes, params.displacement node.size ≠ .ok none)
    {targets : Targets} {base bound : Nat} (h4 : Machine.InRange base bound (.call targets.x4))
    (h8 : Machine.InRange base bound (.call targets.x8)) :
    (∀ p ∈ requests (script params targets nodes).2.toList, Machine.InRange base bound p) ∧
    (∀ summary, (script params targets nodes).1 = .ok summary →
      TwiddlesFitFrom params 0 (beforeSentinel nodes)) ∧
    ∀ f, (script params targets nodes).1 = .error f → Broken params (beforeSentinel nodes) f := by
  -- along the chain, what is left fits if and only if all of it fits
  let good (l : List Node) (before : Registers) : Prop := before.IsNear ∧
    (TwiddlesFitFrom params before.lut l ↔ TwiddlesFitFrom params 0 (beforeSentinel nodes))
  have hvisits := @visits_ensures params targets (beforeSentinel nodes) good
    (Machine.InRange base bound) ⟨⟨by decide, .inl rfl⟩, Iff.rfl⟩
    (fun node hnode l before hgood lut hd => by
      obtain ⟨hbefore, hiff⟩ := hgood
      obtain ⟨k, hk, hsize, hoffset⟩ := near_of_mem_postOrder ha (hnodes ▸ hnode)
      refine ⟨fun hfits => ⟨hbefore.atCall hsize hk hoffset, ?_⟩,
        fun p => hbefore.inRange hsize hk base bound⟩
      rw [← hiff, twiddlesFitFrom_cons hd]
      exact ⟨fun h => ⟨hfits.2, h⟩, fun h => h.2⟩)
    (fun node => by
      unfold baseCase
      split
      · exact h4
      · exact h8)
  obtain ⟨d, ⟨⟨hasks, -, hiff⟩, hscript⟩ |
    ⟨f, ⟨hasks, node, hnode, l, d', t, hgood, hi⟩, hscript⟩⟩ := script_cases hvisits
  · rw [hscript]
    exact ⟨hasks.1, fun _ _ => hiff.1 trivial, nofun⟩
  · rw [hscript]
    refine ⟨hasks.1, nofun, fun f' hf' => ?_⟩
    cases hf'
    obtain ⟨hnear, hiff⟩ := hgood
    obtain ⟨k, hk, hsize, hoffset⟩ := near_of_mem_postOrder ha (hnodes ▸ hnode)
    have hmax : node.size ≤ 2 ^ 26 := hsize ▸ Nat.pow_le_pow_right (by decide) hk
    unfold Broken
    rw [← hiff]
    cases hi with
    | outOfWord h =>
      refine ⟨fun ⟨lut, hd, _⟩ => ?_, .inl ⟨_, rfl⟩⟩
      rw [h] at hd
      cases hd
    | noEntry h => exact absurd h (hentry node hnode)
    | unfit h hfit hf _ =>
      refine ⟨fun hrest => hfit ?_, hf⟩
      exact hnear.fits hmax hoffset ((twiddlesFitFrom_cons h).1 hrest).1

end CallChain

/-- The twiddle positions of a transform fit, from the start of its call chain on. -/
def Transform.Parameters.TwiddlesFit (p : Transform.Parameters) : Prop :=
  CallChain.TwiddlesFitFrom p 0 (Decomposition.postOrder p.leaf p.size 0)

instance (p : Transform.Parameters) : Decidable p.TwiddlesFit :=
  CallChain.decidableTwiddlesFitFrom p 0 _

end SplitRadix

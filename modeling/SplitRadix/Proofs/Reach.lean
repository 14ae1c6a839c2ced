import Mathlib.Order.Monotone.Defs
import SplitRadix.Proofs.ChainText
import SplitRadix.Proofs.Export

/-!
# How far the calls of a routine reach

The number of nodes grows with the size of a transform and shrinks as its leaves grow, and it stays
below the number of leaves. A routine therefore stays short enough for a call to have its distance in
a signed 32-bit field, wherever in the routine it stands.

* `count_monotone`, `count_antitone`, `count_mul_lt`: how the count grows.
* `distance_fits`: how far it is from a place in a routine to what its chain calls.
* `calls_in_reach`: counts, bounds and distances.
-/

namespace SplitRadix.Decomposition

theorem count_monotone (leaf : Nat) : Monotone fun n => count n leaf := by
  intro m n hle
  induction n using Nat.strongRecOn generalizing m with
  | ind n ih =>
    dsimp only at ih ⊢
    by_cases hm : m ≤ leaf
    · rw [count_of_le hm]
      exact Nat.zero_le _
    · have hquarter := ih (n / 4) (by omega) (Nat.div_le_div_right hle)
      have heighth := ih (n / 8) (by omega) (Nat.div_le_div_right hle)
      rw [count_of_lt (show leaf < m by omega), count_of_lt (show leaf < n by omega)]
      omega

theorem count_antitone (n : Nat) : Antitone (count n) := by
  intro leaf larger hle
  induction n using Nat.strongRecOn with
  | ind n ih =>
    by_cases hn : n ≤ larger
    · rw [count_of_le hn]
      exact Nat.zero_le _
    · have hquarter := ih (n / 4) (by omega)
      have heighth := ih (n / 8) (by omega)
      rw [count_of_lt (show larger < n by omega), count_of_lt (show leaf < n by omega)]
      omega

/-- There are fewer nodes than leaves. -/
theorem count_mul_lt {n leaf : Nat} (hn : Word.isPowerOfTwo n = true)
    (hleaf : Word.isPowerOfTwo leaf = true) (hlt : leaf < n) : count n leaf * leaf < n := by
  obtain ⟨a, rfl⟩ := Word.isPowerOfTwo_iff.1 hn
  obtain ⟨b, rfl⟩ := Word.isPowerOfTwo_iff.1 hleaf
  have hba : b < a := (Nat.pow_lt_pow_iff_right (by decide)).1 hlt
  have hcount := count_two_pow_lt b (a - b)
  rw [show b + (a - b) = a by omega] at hcount
  calc count (2 ^ a) (2 ^ b) * 2 ^ b < 2 ^ (a - b) * 2 ^ b :=
        Nat.mul_lt_mul_of_pos_right hcount (Nat.two_pow_pos b)
    _ = 2 ^ a := by rw [← Nat.pow_add, show a - b + b = a by omega]

end SplitRadix.Decomposition

namespace SplitRadix.Generator

open Target Routine Machine CallChain
open Transform (isSupported)

variable {g u : Generation Unit} {request : Request} {r : Routine}

theorem Assembled.stop_le (h : Assembled g request r u) {fragment : Fragment}
    (hmem : fragment ∈ r.fragments) : fragment.offset + fragment.length ≤ r.length := by
  obtain ⟨words, -, hlength, -, -, hparts⟩ := h.text
  have := (hparts fragment hmem).stop_le
  omega

/-- From every place in a routine, the distance to what its chain calls fits the field of a
call. -/
theorem distance_fits (hbackend : g.generator.backend = Machine.backend)
    (h : (generate request).result g = (.ok r, u)) {place target : Nat} (hplace : place ≤ r.length)
    (htarget : target ∈ (chainRequests g request r).filterMap callTarget?) :
    IsImmediate ((target : Int) - (g.plan.region.base + place : Nat)) := by
  have hlength := length_lt_of_generate hbackend h
  obtain ⟨-, -, hfirst, hsecond, hinside⟩ := entries_of_generate hbackend h
  obtain ⟨p, hp, hcall⟩ := List.mem_filterMap.1 htarget
  have hrequest := (assembled_of_generate hbackend h).requests.1 p hp
  unfold IsImmediate
  cases hrequest with
  | call h =>
    cases hcall
    simp only [callTargets] at h
    omega
  | load _ => cases hcall
  | shift _ => cases hcall
  | output _ => cases hcall
  | lut _ => cases hcall

/-- Counting the nodes stays in words, and the count grows with the size and falls with the leaf,
below the number of leaves. The bound on a routine of the x86-64 target is therefore computed in
words: it is 60 bytes for each node above a constant, and below the reach of a call. The chain of a
routine has one call for each node, and from the end of every instruction in it each base case called
is at a distance that fits a signed 32-bit field. -/
theorem calls_in_reach :
    (∀ n leaf, 3 * n < 2 ^ 64 →
      Decomposition.countWord n leaf = .ok (Decomposition.count n leaf)) ∧
    (∀ leaf, Monotone fun n => Decomposition.count n leaf) ∧
    (∀ n, Antitone (Decomposition.count n)) ∧
    (∀ n leaf, Word.isPowerOfTwo n = true → Word.isPowerOfTwo leaf = true → 2 ≤ leaf → leaf < n →
      Decomposition.count n leaf * leaf < n) ∧
    (∀ size leaf, isSupported size leaf = .ok true →
      ∃ bound, capacityBound Machine.backend size leaf = .ok bound ∧ bound < 2 ^ 31 ∧
        bound = capacity Machine.backend 0 + 60 * Decomposition.count size leaf) ∧
    ∀ (g u : Generation Unit) (request : Request) (r : Routine),
      g.generator.backend = Machine.backend → (generate request).result g = (.ok r, u) →
      ∃ bridge epilogue, r.fragment? "bridge" = some bridge ∧
        r.fragment? "epilogue" = some epilogue ∧
        let start := bridge.offset + bridge.length
        let lines := disassemble (g.plan.region.base + start)
          (Bytes.slice u.plan.region.bytes start (epilogue.offset - start))
        let targets := (chainRequests g request r).filterMap callTarget?
        List.Forall₂ (ReadAs (g.plan.region.base + start)) lines (chainRequests g request r) ∧
        targets.length = Decomposition.count request.size request.leaf ∧
        ∀ d ∈ lines, ∀ target ∈ targets,
          IsImmediate ((target : Int) -
            (g.plan.region.base + (start + (d.offset + d.bytes.length)) : Nat)) := by
  refine ⟨fun n leaf => Decomposition.countWord_of_lt leaf, Decomposition.count_monotone,
    Decomposition.count_antitone, fun n leaf hn hleaf _ => Decomposition.count_mul_lt hn hleaf,
    fun size leaf h => ?_, fun g u request r hbackend h => ?_⟩
  · have hlt := capacity_machine_lt (count_lt_of_isSupported h)
    exact ⟨_, capacityBound_machine h, by omega, capacity_machine _⟩
  · have hassembled := assembled_of_generate hbackend h
    obtain ⟨bridge, epilogue, words, hbridge, hepilogue, hslice, hlines⟩ := hassembled.chain
    refine ⟨bridge, epilogue, hbridge, hepilogue, ?_⟩
    have hcalls := hassembled.requests.2
    have hend := hassembled.stop_le (List.mem_of_find?_eq_some hepilogue)
    have hbegin := hassembled.stop_le (List.mem_of_find?_eq_some hbridge)
    -- the chain ends where the epilogue starts
    have hinside : (Spelling.text words).length ≤
        epilogue.offset - (bridge.offset + bridge.length) := by
      rw [← hslice]
      exact List.length_take_le _ _
    dsimp only
    rw [hslice, disassemble, Spelling.disassembleFrom_text]
    refine ⟨hlines, ?_, fun d hd target htarget => distance_fits hbackend h ?_ htarget⟩
    · rw [hcalls, List.length_map, Decomposition.length_postOrder]
    · have := (Spelling.stop_le_of_mem_lines hd).2.2
      omega

/-- The largest transform with the smallest leaves, where the bound is nearest to the reach of a
call, and the four calls of a transform of 32 elements with leaves of 4. -/
theorem calls_in_reach_of_32 :
    let g : Generation Unit :=
      { generator := { backend := Machine.backend, own := (), session := .start none }
        plan := { parameters := ⟨32, 4, .ofLeaves 8, Transform.referenceTable 4 3⟩
                  region := .blank 4099 2048 } }
    Decomposition.count (2 ^ 26) 2 * 2 < 2 ^ 26 ∧ isSupported (2 ^ 26) 2 = .ok true ∧
    (∃ bound, capacityBound Machine.backend (2 ^ 26) 2 = .ok bound ∧ bound < 2 ^ 31) ∧
    ∃ r u bridge epilogue, (generate ⟨32, 4, .inverse⟩).result g = (.ok r, u) ∧
      r.fragment? "bridge" = some bridge ∧ r.fragment? "epilogue" = some epilogue ∧
      let start := bridge.offset + bridge.length
      let lines := disassemble (4099 + start)
        (Bytes.slice u.plan.region.bytes start (epilogue.offset - start))
      let targets := (chainRequests g ⟨32, 4, .inverse⟩ r).filterMap callTarget?
      targets.length = 4 ∧
      ∀ d ∈ lines, ∀ target ∈ targets,
        IsImmediate ((target : Int) - (4099 + (start + (d.offset + d.bytes.length)) : Nat)) := by
  intro g
  obtain ⟨-, -, -, hcount, hbound, hcalls⟩ := calls_in_reach
  have hsupported : isSupported (2 ^ 26) 2 = .ok true := eq_ok_of_toOption (by decide +kernel)
  have hok : ((generate ⟨32, 4, .inverse⟩).result g).1.isOk = true := by decide +kernel
  obtain ⟨bound, hcapacity, hlt, -⟩ := hbound _ _ hsupported
  refine ⟨hcount _ _ (by decide +kernel) (by decide +kernel) (by decide) (by decide), hsupported,
    ⟨bound, hcapacity, hlt⟩, ?_⟩
  obtain ⟨r, u, hr⟩ := Action.exists_of_isOk hok
  obtain ⟨bridge, epilogue, hbridge, hepilogue, -, hlength, hfits⟩ := hcalls g u _ r rfl hr
  have hfour : Decomposition.count 32 4 = 4 := by decide +kernel
  exact ⟨r, u, bridge, epilogue, hr, hbridge, hepilogue, hlength.trans hfour, hfits⟩

end SplitRadix.Generator

import SplitRadix.Proofs.Capacity
import SplitRadix.Proofs.Ranges
import SplitRadix.Proofs.Scratch

/-!
# Writing for the x86-64 target

A prepared generation for the x86-64 target has room for its routine, reaches every place in it with
a call, and takes the offsets of its leaf passes. What can stop it once it writes is its plan: a
twiddle position that is too far from the one before.

* `accepts_of_copied`: every kernel takes the offsets of a supported transform.
* `capacityBound_machine`, `capacity_machine_lt`: a routine is shorter than the reach of a call.
* `sure_covers`: room up to the bound pays for every piece.
* `decompose_of_valid`: why the nodes of a valid request may not be stored.
* `Prepared.writes`: how the writing of a prepared generation ends.
-/

namespace SplitRadix.Routine

open Target Kernel Leaf
open Transform (Parameters)

/-- Every kernel takes the values that a routine of a supported size puts into it. -/
theorem accepts_of_copied {lib : Library} (hlib : lib.WellFormed) {size : Nat}
    (hsize : size ≤ 2 ^ 26) {t : Template} {patches : List UInt32}
    (h : Copied lib size t patches) : t.Accepts patches := by
  cases h with
  | fixed ht =>
    refine ⟨(hlib.fixed_sites t ht).symm, fun p hp => ?_⟩
    rw [List.zip_nil_right] at hp
    cases hp
  | leaf pass order hpatches =>
    obtain ⟨values, hvalues, hlength, hsmall⟩ := order.patchValues_of_le hsize
    rw [hpatches] at hvalues
    cases hvalues
    refine ⟨hlength.trans (hlib.leaf_sites _ (lib.leaf_mem_leaves pass)).symm, fun p hp => ?_⟩
    have hvalue := hsmall p.2 (List.of_mem_zip hp).2
    cases p.1.kind with
    | displacement => exact decide_eq_true hvalue
    | immediate => rfl

/-! ## The bound -/

theorem count_lt_of_isSupported {size leaf : Nat} (h : Transform.isSupported size leaf = .ok true) :
    Decomposition.count size leaf < 2 ^ 25 := by
  obtain ⟨a, b, rfl, rfl, hb, hba, ha⟩ := Transform.isSupported_iff.1 h
  have hcount := Decomposition.count_two_pow_lt b (a - b)
  rw [show b + (a - b) = a by omega] at hcount
  have := Nat.pow_le_pow_right (show 0 < 2 by decide) (show a - b ≤ 25 by omega)
  omega

/-- Each node adds four primitives of 15 bytes to the bound on a routine of the x86-64 target. -/
theorem capacity_machine (count : Nat) :
    capacity Machine.backend count = capacity Machine.backend 0 + 60 * count := by
  unfold capacity
  rw [Nat.mul_zero, Nat.add_zero]
  rfl

/-- A routine of the x86-64 target with fewer than 2^25 nodes is shorter than the reach of a call. -/
theorem capacity_machine_lt {count : Nat} (h : count < 2 ^ 25) :
    capacity Machine.backend count + 5 ≤ 2 ^ 31 := by
  have hfixed : capacity Machine.backend 0 ≤ 2 ^ 20 := by decide +kernel
  rw [capacity_machine]
  omega

/-- The bound on a routine of the x86-64 target is computed without leaving a word. -/
theorem capacityBound_machine {size leaf : Nat} (h : Transform.isSupported size leaf = .ok true) :
    capacityBound Machine.backend size leaf =
      .ok (capacity Machine.backend (Decomposition.count size leaf)) := by
  have := capacity_machine_lt (count_lt_of_isSupported h)
  exact capacityBound_of_lt (Transform.three_mul_lt_of_isSupported h) (by decide) (by decide)
    (by omega)

/-! ## Room as a budget -/

/-- Room up to `bound` in a buffer at `base`. Only the failures in `broken` are reckoned with. -/
def sure (base bound : Nat) (broken : Failure GenerateError → Prop) : Budget Unit where
  spare n e := e.buffer.base = base ∧ e.buffer.position + n ≤ bound ∧ bound ≤ e.buffer.capacity
  kind := Machine.InRange base bound
  failure f _ := broken f

variable {base bound n : Nat} {broken : Failure GenerateError → Prop} {e : Emission Unit}

theorem sure_push (bytes : Bytes) (hs : (sure base bound broken).spare (bytes.length + n) e)
    {t : Emission Unit} (ht : t.buffer = e.buffer.push bytes) :
    (sure base bound broken).spare n t := by
  obtain ⟨hbase, hposition, hcapacity⟩ := hs
  show t.buffer.base = base ∧ t.buffer.position + n ≤ bound ∧ bound ≤ t.buffer.capacity
  rw [ht]
  refine ⟨hbase, ?_, hcapacity⟩
  show e.buffer.position + bytes.length + n ≤ bound
  omega

theorem sure_mono {m : Nat} (hle : m ≤ n) (hs : (sure base bound broken).spare n e) :
    (sure base bound broken).spare m e :=
  ⟨hs.1, Nat.le_trans (Nat.add_le_add_left hle _) hs.2.1, hs.2.2⟩

theorem sure_emit (hreach : bound + 5 ≤ 2 ^ 31) {p : Primitive} (hp : Machine.InRange base bound p)
    (hs : (sure base bound broken).spare (cost Machine.backend p + n) e) :
    (Machine.backend.emit p).Ensures e (fun _ t => (sure base bound broken).spare n t)
      fun _ _ => False := by
  have hs' := hs
  obtain ⟨hbase, hposition, hcapacity⟩ := hs'
  have hroom : cost Machine.backend p ≤ e.buffer.remaining := by
    unfold Code.Buffer.remaining
    omega
  refine (Machine.emitPrimitive_ensures hp hbase (by omega) hreach hroom).mono ?_ fun _ _ h => h
  intro _ t ht
  obtain ⟨bytes, hbytes, rfl⟩ := ht
  exact sure_push bytes (sure_mono (Nat.add_le_add_right hbytes n) hs) rfl

theorem sure_align (hmemory : base + bound < 2 ^ 64) {bias : Nat} (hbias : bias ≤ n)
    (hs : (sure base bound broken).spare (slack Machine.backend + n) e) :
    (Machine.backend.align bias).Ensures e (fun _ t => (sure base bound broken).spare n t)
      fun _ _ => False := by
  have hs' := hs
  obtain ⟨hbase, hposition, hcapacity⟩ := hs'
  have haddress : e.buffer.address + bias < 2 ^ 64 := by
    unfold Code.Buffer.address
    omega
  obtain ⟨needed, hneeded⟩ : ∃ needed, e.buffer.paddingFor Machine.fetchAlignment bias = .ok needed :=
    ⟨_, Code.Buffer.paddingFor_eq_ok.2 ⟨⟨4, rfl⟩, haddress, rfl⟩⟩
  have hslack : needed ≤ slack Machine.backend :=
    Nat.le_sub_one_of_lt (Code.Buffer.paddingFor_lt hneeded)
  refine (Machine.alignCursor_ensures bias).mono ?_ ?_
  · intro padding t ht
    obtain ⟨hpadding, -, ht⟩ := ht
    cases hneeded.symm.trans hpadding
    have hlength := Machine.length_padding needed
    exact sure_push _ (sure_mono (by omega) hs) ht
  · intro f _ hf
    rcases hf.2 with ⟨x, -, hx⟩ | ⟨padding, -, hpadding, hroom⟩
    · cases hneeded.symm.trans hx
    · cases hneeded.symm.trans hpadding
      unfold Code.Buffer.remaining at hroom
      omega

/-- Room up to the bound pays for every piece of the routine of a supported transform, except for
chains whose twiddle positions do not fit. -/
theorem sure_covers {params : Parameters} {a b : Nat} (ha : a ≤ 26) (hsize : params.size = 2 ^ a)
    {nodes : List Node}
    (hnodes : CallChain.beforeSentinel nodes = Decomposition.postOrder (2 ^ b) (2 ^ a) 0)
    (hentry : ∀ node ∈ CallChain.beforeSentinel nodes, params.displacement node.size ≠ .ok none)
    (hreach : bound + 5 ≤ 2 ^ 31) (hmemory : base + bound < 2 ^ 64) :
    (sure base bound (CallChain.Broken params (CallChain.beforeSentinel nodes))).Covers
      Machine.backend params nodes where
  mono := sure_mono
  note _ hs := hs
  push bytes hs := sure_push bytes hs rfl
  copyFailure {n e t patches f} hc hs hf := by
    obtain ⟨hbase, hposition, hcapacity⟩ := hs
    cases hf with
    | noRoom hroom _ =>
      unfold Code.Buffer.remaining at hroom
      omega
    | outOfWord hword _ => omega
    | refused hrefused _ =>
      have hlib := Library.wellFormed_of_validate Machine.kernels_validate
      have hmax : params.size ≤ 2 ^ 26 := hsize ▸ Nat.pow_le_pow_right (by decide) ha
      exact absurd (accepts_of_copied hlib hmax hc) hrefused
  patches {order x} hx := by
    have hmax : params.size ≤ 2 ^ 26 := hsize ▸ Nat.pow_le_pow_right (by decide) ha
    obtain ⟨values, hvalues, -⟩ := order.patchValues_of_le hmax
    rw [hvalues] at hx
    cases hx
  emit hp hs := (sure_emit hreach hp hs).mono (fun _ _ h => h) fun _ _ h => h.elim
  align hbias hs := (sure_align hmemory hbias hs).mono (fun _ _ h => h) fun _ _ h => h.elim
  prologue := trivial
  epilogue := trivial
  load _ := trivial
  addressOf {m n e u x} he hu hx := by
    have := Word.le_of_add_eq_error hx
    have := he.2.1
    have := hu.1
    omega
  call {m n e u address} he hu haddress := by
    obtain ⟨rfl, -⟩ := Word.add_eq_ok.1 haddress
    have := he.2.1
    have := hu.1
    exact ⟨by omega, by omega⟩
  script targets h4 h8 := by
    obtain ⟨hkind, -, hfail⟩ := CallChain.script_supported ha hnodes hentry h4 h8
    exact ⟨hkind, fun f hf _ => hfail f hf⟩

end SplitRadix.Routine

namespace SplitRadix.Generator

open Target Scratch Routine
open Transform (Parameters)

/-- The nodes of a valid request are stored, unless a limited session refuses the memory. -/
theorem decompose_of_valid {g : Generation Unit} {request : Request}
    (hvalid : validate g.plan.parameters request = .ok ())
    {c : Failure ScratchError} {s : Session}
    (h : (Session.decompose request.size request.leaf).result g.generator.session =
      (.error c, s)) :
    g.generator.session.arena.limit ≠ none ∧ ∃ cause, c = .error cause := by
  have hsupported := (validate_eq_ok.1 hvalid).1
  have h3 := Transform.three_mul_lt_of_isSupported hsupported
  have hcount := count_lt_of_isSupported hsupported
  constructor
  · intro hlimit
    exact (Session.decompose_unlimited hlimit h3 (by omega)).of_error h
  · exact ((Session.decompose_of_reserve h3 (by omega) (Session.reserve_refused _ _)).of_error h).2

/-- Once a prepared generation writes, it completes its routine if and only if the twiddle positions
of its plan fit. -/
theorem Prepared.writes {g : Generation Unit} {request : Request} {nodes : Array Node} {s : Session}
    {bound : Nat} {schedule : Leaf.Schedule} (hp : Prepared g request nodes s)
    (hbackend : g.generator.backend = Machine.backend)
    (hmemory : g.plan.region.base + g.plan.region.length < 2 ^ 64)
    (hbound : capacityBound g.generator.backend request.size request.leaf = .ok bound)
    (hfits : bound ≤ g.plan.region.length)
    (hschedule : Leaf.Schedule.make request.size g.plan.parameters.iterations = .ok schedule)
    (event : Event) :
    (Routine.emit g.generator.backend g.plan.parameters request.direction schedule
        nodes.toList).Ensures ((g.withSession s).noting event).emission
      (fun _ _ => g.plan.parameters.TwiddlesFit)
      fun f _ => ¬ g.plan.parameters.TwiddlesFit ∧
        ((∃ x, f = .fault x) ∨ ∃ cause, f = .error (.encoding cause)) := by
  have hentry := hp.displacement_ne_none
  have hsupported := hp.supported
  have hreach := capacity_machine_lt (count_lt_of_isSupported hsupported)
  have hcost := routineCost_le Machine.backend hschedule
    (Decomposition.count request.size request.leaf)
  have hlib := Kernel.Library.wellFormed_of_validate Machine.kernels_validate
  rw [hbackend] at hbound ⊢
  rw [capacityBound_machine hsupported] at hbound
  cases hbound
  obtain ⟨-, hsize, hleaf, -⟩ := validate_eq_ok.1 hp.valid
  obtain ⟨a, b, ha, hb, -, -, hmax⟩ := Transform.isSupported_iff.1 hsupported
  have hnodes : CallChain.beforeSentinel nodes.toList =
      Decomposition.postOrder (2 ^ b) (2 ^ a) 0 := by
    rw [hp.visited, ha, hb]
  have hfit : g.plan.parameters.TwiddlesFit ↔ CallChain.TwiddlesFitFrom g.plan.parameters 0
      (CallChain.beforeSentinel nodes.toList) := by
    unfold Parameters.TwiddlesFit
    rw [hp.visited, hsize, hleaf]
  rw [hfit]
  have hcovers := @sure_covers g.plan.region.base _ _ a b hmax (hsize.trans ha) _ hnodes hentry
    hreach (by omega)
  refine (hcovers.emit_ensures (n := 0) hlib request.direction schedule ⟨rfl, ?_, hfits⟩).mono ?_
    fun _ _ hf => hf
  · rw [hp.length_visited]
    show 0 + (_ + 0) ≤ _
    omega
  · intro r u hr
    obtain ⟨-, -, targets, hscript⟩ := hr
    have h4 : Machine.InRange 0 (targets.x4 + targets.x8) (.call targets.x4) :=
      ⟨Nat.zero_le _, by omega⟩
    have h8 : Machine.InRange 0 (targets.x4 + targets.x8) (.call targets.x8) :=
      ⟨Nat.zero_le _, by omega⟩
    exact (CallChain.script_supported hmax hnodes hentry h4 h8).2.1 _ hscript

end SplitRadix.Generator

import SplitRadix.Proofs.Budget
import SplitRadix.Proofs.Generation
import SplitRadix.Proofs.Lengths

/-!
# The bound on the length of a routine

The bound is written down apart from the writing of a routine. It covers every schedule, every
alignment and every chain, so that a region as large as the bound always has room.

* `capacity`, `capacityBound_eq_ok`: the bound as one sum.
* `routineCost_le`: the pieces of a routine together stay within it.
* `room`, `room_covers`: the room that is left, as a budget.
* `generation_within_capacity`: no generation runs out of room.
-/

namespace SplitRadix.Routine

open Target Kernel Leaf
open Transform (Parameters)

variable {σ : Type}

/-! ## The bound as a sum -/

theorem foldlM_add_eq_ok {first n : Nat} {rest : List Nat} (h : rest.foldlM Word.add first = .ok n) :
    first + rest.sum = n := by
  induction rest generalizing first with
  | nil => cases h; rfl
  | cons a rest ih =>
    rw [List.foldlM_cons] at h
    obtain ⟨s, hs, h⟩ := exceptBind_eq_ok.1 h
    obtain ⟨rfl, -⟩ := Word.add_eq_ok.1 hs
    rw [List.sum_cons, ← Nat.add_assoc]
    exact ih h

theorem foldlM_add_of_lt {first : Nat} {rest : List Nat} (h : first + rest.sum < 2 ^ 64) :
    rest.foldlM Word.add first = .ok (first + rest.sum) := by
  induction rest generalizing first with
  | nil => rfl
  | cons a rest ih =>
    rw [List.sum_cons, ← Nat.add_assoc] at h ⊢
    rw [List.foldlM_cons]
    exact exceptBind_eq_ok.2 ⟨_, Word.add_of_lt (by omega), ih h⟩

theorem total_eq_ok {lengths : List Nat} {n : Nat} (h : total lengths = .ok n) :
    lengths.sum = n := by
  cases lengths with
  | nil => cases h; rfl
  | cons first rest => exact foldlM_add_eq_ok h

theorem total_of_lt {lengths : List Nat} (h : lengths.sum < 2 ^ 64) :
    total lengths = .ok lengths.sum := by
  cases lengths with
  | nil => rfl
  | cons first rest => exact foldlM_add_of_lt h

/-- The most bytes the leaf passes take together. -/
def leafCapacity (lib : Library) : Nat :=
  2 * (lib.leaf .evenEven).length + (lib.leaf .oddOdd).length +
    max (lib.leaf .evenOdd).length (lib.leaf .oddEven).length

/-- The most bytes of a routine with `count` nodes. -/
def capacity (backend : Backend σ) (count : Nat) : Nat :=
  let lib := backend.kernels
  lib.x4.length + lib.x8.length + lib.leafInit.length + lib.bridge.length +
    backend.prologueLength + backend.epilogueLength + leafCapacity lib + 7 * slack backend +
    3 * backend.maxPrimitive + 4 * backend.maxPrimitive * count

theorem countWord_eq_ok {size leaf n : Nat} (h : Decomposition.countWord size leaf = .ok n) :
    n = Decomposition.count size leaf := by
  unfold Decomposition.countWord at h
  split at h
  · rename_i hle
    cases h
    rw [Decomposition.count, if_pos hle]
  · obtain ⟨_, -, h⟩ := exceptBind_eq_ok.1 h
    cases h
    rfl

theorem leafBound_eq_ok {lib : Library} {n : Nat} (h : leafBound lib = .ok n) :
    n = leafCapacity lib := by
  obtain ⟨evens, he, h⟩ := exceptBind_eq_ok.1 h
  obtain ⟨rfl, -⟩ := Word.mul_eq_ok.1 he
  rw [← total_eq_ok h]
  simp [leafCapacity]
  omega

theorem leafBound_of_lt {lib : Library} (h : leafCapacity lib < 2 ^ 64) :
    leafBound lib = .ok (leafCapacity lib) := by
  have hsum : leafCapacity lib = [2 * (lib.leaf .evenEven).length, (lib.leaf .oddOdd).length,
      max (lib.leaf .evenOdd).length (lib.leaf .oddEven).length].sum := by
    simp only [leafCapacity, List.sum_cons, List.sum_nil]
    omega
  refine exceptBind_eq_ok.2 ⟨_, Word.mul_of_lt (by unfold leafCapacity at h; omega), ?_⟩
  rw [hsum] at h ⊢
  exact total_of_lt h

/-- The bound, when there is one, is the sum it stands for. -/
theorem capacityBound_eq_ok {backend : Backend σ} {size leaf bound : Nat}
    (h : capacityBound backend size leaf = .ok bound) :
    bound = capacity backend (Decomposition.count size leaf) ∧ 1 ≤ backend.fetchAlignment := by
  unfold capacityBound at h
  obtain ⟨pad, hpad, h⟩ := exceptBind_eq_ok.1 h
  obtain ⟨passes, hpasses, h⟩ := exceptBind_eq_ok.1 h
  obtain ⟨fixed, hfixed, h⟩ := exceptBind_eq_ok.1 h
  obtain ⟨alignment, halignment, h⟩ := exceptBind_eq_ok.1 h
  obtain ⟨counters, hcounters, h⟩ := exceptBind_eq_ok.1 h
  obtain ⟨perNode, hperNode, h⟩ := exceptBind_eq_ok.1 h
  obtain ⟨count, hcount, h⟩ := exceptBind_eq_ok.1 h
  obtain ⟨chain, hchain, h⟩ := exceptBind_eq_ok.1 h
  obtain ⟨hpos, rfl⟩ := Word.sub_eq_ok.1 hpad
  obtain ⟨rfl, -⟩ := Word.mul_eq_ok.1 halignment
  obtain ⟨rfl, -⟩ := Word.mul_eq_ok.1 hcounters
  obtain ⟨rfl, -⟩ := Word.mul_eq_ok.1 hperNode
  obtain ⟨rfl, -⟩ := Word.mul_eq_ok.1 hchain
  refine ⟨?_, hpos⟩
  have hsum := total_eq_ok h
  have hfixed := total_eq_ok hfixed
  simp only [List.sum_cons, List.sum_nil] at hsum hfixed
  rw [← hsum, ← hfixed, leafBound_eq_ok hpasses, countWord_eq_ok hcount]
  unfold capacity slack
  dsimp only
  omega

/-- The bound can be computed if it fits a word. -/
theorem capacityBound_of_lt {backend : Backend σ} {size leaf : Nat} (h3 : 3 * size < 2 ^ 64)
    (hpos : 1 ≤ backend.fetchAlignment) (hnode : 4 * backend.maxPrimitive < 2 ^ 64)
    (h : capacity backend (Decomposition.count size leaf) < 2 ^ 64) :
    capacityBound backend size leaf = .ok (capacity backend (Decomposition.count size leaf)) := by
  have hcount : Decomposition.countWord size leaf = .ok (Decomposition.count size leaf) :=
    Decomposition.countWord_of_lt leaf h3
  generalize Decomposition.count size leaf = count at h hcount ⊢
  have hsum : capacity backend count = [[backend.kernels.x4.length, backend.kernels.x8.length,
      backend.kernels.leafInit.length, backend.kernels.bridge.length, backend.prologueLength,
      backend.epilogueLength].sum, leafCapacity backend.kernels, 7 * (backend.fetchAlignment - 1),
      3 * backend.maxPrimitive, 4 * backend.maxPrimitive * count].sum := by
    simp only [capacity, slack, List.sum_cons, List.sum_nil]
    omega
  have hparts := h
  unfold capacity slack at hparts
  dsimp only at hparts
  unfold capacityBound
  refine exceptBind_eq_ok.2 ⟨_, Word.sub_eq_ok.2 ⟨hpos, rfl⟩, ?_⟩
  refine exceptBind_eq_ok.2 ⟨_, leafBound_of_lt (by omega), ?_⟩
  refine exceptBind_eq_ok.2 ⟨_, total_of_lt (by simp only [List.sum_cons, List.sum_nil]; omega), ?_⟩
  refine exceptBind_eq_ok.2 ⟨_, Word.mul_of_lt (by omega), ?_⟩
  refine exceptBind_eq_ok.2 ⟨_, Word.mul_of_lt (by omega), ?_⟩
  refine exceptBind_eq_ok.2 ⟨_, Word.mul_of_lt hnode, ?_⟩
  refine exceptBind_eq_ok.2 ⟨_, hcount, ?_⟩
  refine exceptBind_eq_ok.2 ⟨_, Word.mul_of_lt (by omega), ?_⟩
  rw [hsum] at h ⊢
  exact total_of_lt h

/-! ## The pieces stay within the bound -/

/-- The leaf passes of a schedule. -/
theorem steps_of_make {n : Nat} {counts : Transform.IterationCounts} {schedule : Schedule}
    (h : Schedule.make n counts = .ok schedule) :
    schedule.steps = [.opening, .oddEven] ∨ schedule.steps = [.opening, .evenOdd] ∨
    ∃ odd bound, schedule.steps = [.opening, .oddOdd odd, .oddEven, .closing bound] ∨
      schedule.steps = [.opening, .evenOdd, .oddOdd odd, .closing bound] := by
  unfold Schedule.make at h
  obtain ⟨initial, -, h⟩ := exceptBind_eq_ok.1 h
  obtain ⟨secondary, -, h⟩ := exceptBind_eq_ok.1 h
  split at h
  · obtain ⟨bound, -, h⟩ := exceptBind_eq_ok.1 h
    cases h
    cases isOddSize n
    · exact .inr (.inl rfl)
    · exact .inl rfl
  · split at h
    · obtain ⟨odd, -, h⟩ := exceptBind_eq_ok.1 h
      obtain ⟨mixed, -, h⟩ := exceptBind_eq_ok.1 h
      obtain ⟨bound, -, h⟩ := exceptBind_eq_ok.1 h
      cases h
      exact .inr (.inr ⟨odd, bound, .inl rfl⟩)
    · obtain ⟨mixed, -, h⟩ := exceptBind_eq_ok.1 h
      obtain ⟨odd, -, h⟩ := exceptBind_eq_ok.1 h
      obtain ⟨bound, -, h⟩ := exceptBind_eq_ok.1 h
      cases h
      exact .inr (.inr ⟨odd, bound, .inr rfl⟩)

/-- The leaf passes load the loop bound twice and align three loop heads at most. -/
theorem sum_stepCost_le (backend : Backend σ) {n : Nat} {counts : Transform.IterationCounts}
    {schedule : Schedule} (h : Schedule.make n counts = .ok schedule) :
    (schedule.steps.map (stepCost backend)).sum ≤
      leafCapacity backend.kernels + 3 * slack backend + 2 * backend.maxPrimitive := by
  unfold leafCapacity
  rcases steps_of_make h with hs | hs | ⟨odd, bound, hs | hs⟩ <;>
    rw [hs] <;>
    simp [stepCost, Step.opening, Step.oddEven, Step.evenOdd, Step.oddOdd, Step.closing] <;>
    omega

theorem routineCost_le (backend : Backend σ) {n : Nat} {counts : Transform.IterationCounts}
    {schedule : Schedule} (h : Schedule.make n counts = .ok schedule) (count : Nat) :
    routineCost backend schedule.steps count ≤ capacity backend count := by
  have hsteps := sum_stepCost_le backend h
  have hchain : backend.maxPrimitive * (4 * count) = 4 * backend.maxPrimitive * count := by
    rw [← Nat.mul_assoc, Nat.mul_comm backend.maxPrimitive 4]
  unfold routineCost capacity
  dsimp only
  omega

/-! ## Room as a budget -/

/-- Room up to `bound` in the buffer, with no failure for lack of it. -/
def room (σ : Type) (bound : Nat) : Budget σ where
  spare n e := e.buffer.position + n ≤ bound ∧ bound ≤ e.buffer.capacity
  kind _ := True
  failure f _ := ∀ cause, f ≠ .error (.buffer cause)

theorem room_appends {α : Type} {act : Emit σ α} {allowed : Code.Buffer → Nat → Prop}
    {bound m n : Nat} {e : Emission σ} (h : act.Appends allowed)
    (hle : ∀ k, allowed e.buffer k → k ≤ m) (hs : (room σ bound).spare (m + n) e) :
    act.Ensures e (fun _ t => (room σ bound).spare n t) (room σ bound).failure := by
  obtain ⟨hposition, hcapacity⟩ := hs
  refine (h e).mono ?_ ?_
  · rintro _ t ⟨bytes, hbytes, ht⟩
    have := hle _ hbytes
    show t.buffer.position + n ≤ bound ∧ bound ≤ t.buffer.capacity
    rw [ht]
    exact ⟨by show e.buffer.position + bytes.length + n ≤ bound; omega, hcapacity⟩
  · intro f _ hf cause hcause
    obtain ⟨k, hk, hroom⟩ := hf cause hcause
    have := hle k hk
    unfold Code.Buffer.remaining at hroom
    omega

theorem room_covers {backend : Backend σ} (hlengths : backend.KeepsLengths) (params : Parameters)
    (nodes : List Node) (bound : Nat) : (room σ bound).Covers backend params nodes where
  mono hle hs := ⟨Nat.le_trans (Nat.add_le_add_left hle _) hs.1, hs.2⟩
  note _ hs := hs
  push bytes hs := ⟨by
    show _ + bytes.length + _ ≤ bound
    rw [Nat.add_assoc]
    exact hs.1, hs.2⟩
  copyFailure _ hs hf _ cause hcause := by
    obtain ⟨hposition, hcapacity⟩ := hs
    cases hf with
    | noRoom hroom _ =>
      unfold Code.Buffer.remaining at hroom
      omega
    | outOfWord _ x => cases hcause
    | refused _ c => cases hcause
  patches _ := nofun
  emit {p n e} _ hs := by
    by_cases hglue : CallChain.IsGlue p
    · rw [Budget.Covers.cost_glue hglue] at hs
      exact room_appends (hlengths.glue p hglue) (fun _ hk => hk) hs
    · cases p with
      | prologue => exact room_appends hlengths.prologue (fun _ hk => Nat.le_of_eq hk) hs
      | epilogue => exact room_appends hlengths.epilogue (fun _ hk => Nat.le_of_eq hk) hs
      | _ => exact absurd ⟨nofun, nofun⟩ hglue
  align {bias n e} _ hs := room_appends (hlengths.align bias)
    (fun _ hk => Nat.le_sub_one_of_lt (Code.Buffer.paddingFor_lt hk)) hs
  prologue := trivial
  epilogue := trivial
  load _ := trivial
  addressOf _ _ _ := nofun
  call _ _ _ := trivial
  script targets _ _ := by
    refine ⟨fun _ _ => trivial, fun f hf _ cause hcause => ?_⟩
    obtain ⟨node, -, d, t, hi⟩ := CallChain.script_failure hf
    cases hi with
    | outOfWord _ => cases hcause
    | noEntry _ => cases hcause
    | unfit _ _ hf _ =>
      rcases hf with ⟨x, rfl⟩ | ⟨c, rfl⟩ <;> cases hcause

end SplitRadix.Routine

namespace SplitRadix.Generator

open Target Scratch Routine

variable {σ : Type} {g : Generation σ} {request : Request} {nodes : Array Node} {s : Session}

/-- A prepared generation whose region is as large as the bound does not run out of room. -/
theorem Prepared.emit_ensures {bound : Nat} {schedule : Leaf.Schedule}
    (hp : Prepared g request nodes s) (hlengths : g.generator.backend.KeepsLengths)
    (hlib : g.generator.backend.kernels.WellFormed)
    (hbound : capacityBound g.generator.backend request.size request.leaf = .ok bound)
    (hfits : bound ≤ g.plan.region.length)
    (hschedule : Leaf.Schedule.make request.size g.plan.parameters.iterations = .ok schedule)
    (event : Event) :
    (Routine.emit g.generator.backend g.plan.parameters request.direction schedule
        nodes.toList).Ensures ((g.withSession s).noting event).emission
      (fun r _ => r.1.length ≤ bound) fun f _ => ∀ cause, f ≠ .error (.buffer cause) := by
  obtain ⟨rfl, -⟩ := capacityBound_eq_ok hbound
  have hcost := routineCost_le g.generator.backend hschedule
    (Decomposition.count request.size request.leaf)
  have hcovers := room_covers hlengths g.plan.parameters nodes.toList
    (capacity g.generator.backend (Decomposition.count request.size request.leaf))
  refine (hcovers.emit_ensures (n := 0) hlib request.direction schedule ⟨?_, hfits⟩).mono ?_
    fun _ _ hf => hf
  · rw [hp.length_visited]
    show 0 + (_ + 0) ≤ _
    omega
  · rintro r u ⟨⟨hposition, -⟩, hlength, -⟩
    rw [hlength]
    exact hposition

/-- A generation never runs out of room while it writes, and a routine is never longer than its
bound. -/
theorem generation_within_capacity (g : Generation σ) (request : Request)
    (hlib : g.generator.backend.kernels.validate = .ok ())
    (hlengths : g.generator.backend.KeepsLengths) :
    (∀ cause u, (generate request).result g ≠ (.error (.error (.buffer cause)), u)) ∧
    ∀ r u, (generate request).result g = (.ok r, u) →
      ∃ bound, capacityBound g.generator.backend request.size request.leaf = .ok bound ∧
        r.length ≤ bound := by
  have hlib := Kernel.Library.wellFormed_of_validate hlib
  constructor
  · intro cause u h
    cases generate_ensures.of_error h with
    | error hattempt _ _ _ =>
      cases hattempt with
      | refused hvalid =>
        rcases validate_eq_error hvalid with ⟨x, hx⟩ | hx | ⟨reason, hx, -⟩ <;> cases hx
      | @noScratch _ c _ _ _ hf => cases c <;> cases hf
      | written hp hbound hfits hschedule hwrite =>
        exact (hp.emit_ensures hlengths hlib hbound hfits hschedule _).of_error hwrite cause rfl
  · intro r u h
    cases generate_ensures.of_ok h with
    | routine hattempt _ _ _ =>
      cases hattempt with
      | written hp hbound hfits hschedule hwrite =>
        exact ⟨_, hbound,
          (hp.emit_ensures hlengths hlib hbound hfits hschedule _).of_ok hwrite⟩

/-- The x86-64 target writes a transform of 32 elements with leaves of 4 into a region that starts
off every boundary. -/
theorem generation_within_capacity_of_32 :
    let g : Generation Unit :=
      { generator := { backend := Machine.backend, own := (), session := .start none }
        plan := { parameters := ⟨32, 4, .ofLeaves 8, Transform.referenceTable 4 3⟩
                  region := .blank 4099 2048 } }
    g.generator.backend.kernels.validate = .ok () ∧ g.generator.backend.KeepsLengths ∧
    ∃ r u bound, (generate ⟨32, 4, .inverse⟩).result g = (.ok r, u) ∧
      capacityBound g.generator.backend 32 4 = .ok bound ∧ r.length ≤ bound := by
  intro g
  have hlib : g.generator.backend.kernels.validate = .ok () := Machine.kernels_validate
  have hok : ((generate ⟨32, 4, .inverse⟩).result g).1.isOk = true := by decide +kernel
  rcases hr : (generate ⟨32, 4, .inverse⟩).result g with ⟨_ | r, u⟩
  · rw [hr] at hok
    cases hok
  · obtain ⟨bound, hbound, hle⟩ :=
      (generation_within_capacity g ⟨32, 4, .inverse⟩ hlib Machine.keepsLengths).2 r u hr
    exact ⟨hlib, Machine.keepsLengths, r, u, bound, rfl, hbound, hle⟩

end SplitRadix.Generator

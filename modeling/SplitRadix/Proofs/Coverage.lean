import SplitRadix.Machine.Glue
import SplitRadix.Proofs.Blocks
import SplitRadix.Proofs.Execution
import SplitRadix.Proofs.Pieces

/-!
# What the leaf passes write

A block of a leaf pass stores eight vectors one after the other, at 32 bytes times the index, and
moves the index on by four. So the blocks of all passes together store a range of bytes from the
start of the output on, each byte once. There are half as many blocks as leaves, whatever a leaf
holds, and a block is as long as two leaves only for leaves of eight elements. With smaller leaves
the passes write past the end of the output, with larger ones they leave the rest of it as it is.

* `Progress`: the first blocks have been run.
* `Progress.block`: one more block; `Progress.pass`: a pass; `Progress.steps`: a schedule.
* `leaf_passes_store`: all passes of a transform.
-/

namespace SplitRadix.Machine

open Transform (Parameters)
open Leaf (Pass Step Schedule blocksAfter le_blocksAfter)

universe u

variable {V : Type u} {u : VectorUnit V} {m : Memory V} {direction : Direction}

/-! ## The code of the leaf passes -/

/-- Load a loop bound. -/
def loadBound (bound : Nat) : List Line :=
  [.plain (loadInstruction .loopCounter (UInt32.ofNat bound))]

/-- The code of a step for a transform of size `size`. -/
def stepCode (size : Nat) (step : Step) : List (List Line) :=
  (step.reload.map loadBound).toList ++ [fill (step.order.values size) (leafPass step.pass)]

/-- The code of all leaf passes, in the order in which a routine has it. -/
def leafStage (size : Nat) (schedule : Schedule) : List (List Line) :=
  loadBound schedule.initial :: leafInit :: schedule.steps.flatMap (stepCode size)

/-! ## Bytes stored -/

/-- How often a byte of the output was stored. -/
def stores (byte : Nat) (accesses : List Access) : Nat :=
  accesses.countP fun a =>
    a.store && a.segment = .output && a.offset.toNat ≤ byte && byte < a.offset.toNat + 16

theorem stores_append (byte : Nat) (l l' : List Access) :
    stores byte (l ++ l') = stores byte l + stores byte l' := List.countP_append

theorem stores_reverse (byte : Nat) (l : List Access) : stores byte l.reverse = stores byte l :=
  List.countP_reverse

theorem stores_of_loads {l : List Access} (h : ∀ a ∈ l, a.store = false) (byte : Nat) :
    stores byte l = 0 :=
  List.countP_eq_zero.2 fun a ha => by simp [h a ha]

/-- Vectors stored one after the other. -/
def consecutive (start count : Nat) : List Access :=
  (List.range count).map fun i => ⟨true, .output, BitVec.ofNat 64 (start + 16 * i)⟩

theorem stores_consecutive {start count : Nat} (h : start + 16 * count ≤ 2 ^ 64) (byte : Nat) :
    stores byte (consecutive start count) =
      if start ≤ byte ∧ byte < start + 16 * count then 1 else 0 := by
  induction count with
  | zero =>
    rw [if_neg (by omega)]
    rfl
  | succ count ih =>
    have hlast : stores byte [⟨true, .output, BitVec.ofNat 64 (start + 16 * count)⟩] =
        if start + 16 * count ≤ byte ∧ byte < start + 16 * count + 16 then 1 else 0 := by
      have hstart : (BitVec.ofNat 64 (start + 16 * count)).toNat = start + 16 * count :=
        Nat.mod_eq_of_lt (by omega)
      simp [stores, List.countP_cons, hstart, -BitVec.toNat_ofNat]
    have hsplit : consecutive start (count + 1) = consecutive start count ++
        [⟨true, .output, BitVec.ofNat 64 (start + 16 * count)⟩] := by
      simp [consecutive, List.range_succ]
    rw [hsplit, stores_append, hlast, ih (by omega)]
    split <;> split <;> split <;> omega

/-- The range of the bytes stored once has one end. -/
theorem stores_range_unique {accesses : List Access} {m n : Nat}
    (hm : ∀ byte, stores byte accesses = if byte < m then 1 else 0)
    (hn : ∀ byte, stores byte accesses = if byte < n then 1 else 0) : m = n := by
  have hleft := (hm m).symm.trans (hn m)
  have hright := (hm n).symm.trans (hn n)
  rw [if_neg (Nat.lt_irrefl _)] at hleft
  rw [if_neg (Nat.lt_irrefl n)] at hright
  split at hleft
  · cases hleft
  · split at hright
    · cases hright
    · omega

/-! ## One block -/

/-- Without displacements to fill in, nothing changes. -/
theorem fill_nil (lines : List Line) : fill [] lines = lines := by
  induction lines with
  | nil => rfl
  | cons line rest ih =>
    cases line <;> exact congrArg (_ :: ·) ih

theorem fill_loopHead (values : List UInt32) (rest : List Line) :
    fill values (.loopHead :: rest) = .loopHead :: fill values rest := by
  cases values <;> rfl

theorem eq_of_length_eight {α : Type} {l : List α} (h : l.length = 8) :
    ∃ a b c d e f g i, l = [a, b, c, d, e, f, g, i] := by
  rcases l with _ | ⟨a, _ | ⟨b, _ | ⟨c, _ | ⟨d, _ | ⟨e, _ | ⟨f, _ | ⟨g, _ | ⟨i, l⟩⟩⟩⟩⟩⟩⟩⟩
  all_goals simp at h
  exact ⟨a, b, c, d, e, f, g, i, by rw [h]⟩

theorem fill_leafBlock (pass : Pass) {values : List UInt32} (h : values.length = 8)
    (rest : List Line) : fill values (leafBlock pass ++ rest) =
      leafInput ++ ((fill values leafLoads ++ leafButterflies) ++
        (leafStores pass.oddOutput ++ (.plain (.addImmediate .qword .rax 4) :: fill [] rest))) := by
  obtain ⟨v0, v1, v2, v3, v4, v5, v6, v7, rfl⟩ := eq_of_length_eight h
  cases pass <;> rfl

theorem fill_leafLoads {values : List UInt32} (h : values.length = 8) :
    operands (fill values leafLoads ++ leafButterflies) =
      values.map (fun value => (false, .offset .r11 value.toBitVec.toInt)) ∧
    ∀ line ∈ fill values leafLoads ++ leafButterflies, line.isVector = true := by
  obtain ⟨v0, v1, v2, v3, v4, v5, v6, v7, rfl⟩ := eq_of_length_eight h
  exact ⟨rfl, List.all_eq_true.1 rfl⟩

/-- The stores among `leafStores`. -/
def leafResultStores (oddOutput : Bool) : List Line := (leafStores oddOutput).tail

theorem operands_leafResultStores (oddOutput : Bool) :
    operands (leafResultStores oddOutput) = (List.range 8).map
      (fun i => (true, .indexed .rdx .rsi .eight (16 * i : Nat))) ∧
    ∀ line ∈ leafResultStores oddOutput, line.isVector = true := by
  cases oddOutput <;> exact ⟨rfl, List.all_eq_true.1 rfl⟩

theorem setWidth_toBitVec {n : Nat} (h : n < 2 ^ 32) :
    (UInt32.ofNat n).toBitVec.setWidth 64 = BitVec.ofNat 64 n := by
  apply BitVec.eq_of_toNat_eq
  simp only [BitVec.toNat_setWidth, BitVec.toNat_ofNat, UInt32.toNat_toBitVec, UInt32.toNat_ofNat']
  omega

/-- Input and positions can be read anywhere. -/
structure Memory.Readable (m : Memory V) : Prop where
  input : ∀ offset, (m.input offset).isSome
  positions : ∀ offset, (m.positions offset).isSome

/-- The leaf passes have run the first `blocks` blocks of a transform, and what they have stored is
the bytes of these blocks, each of them once. -/
structure Progress (blocks bound : Nat) (s : State V) : Prop where
  index : s.general .rax = .number (BitVec.ofNat 64 (4 * blocks))
  bound : s.general .rcx = .number (BitVec.ofNat 64 bound)
  output : s.general .rdx = .pointer .output 0
  input : ∃ offset, s.general .r9 = .pointer .input offset
  positions : ∃ offset, s.general .r10 = .pointer .positions offset
  defined : ∀ i, (s.output i).isSome
  stored : ∀ byte, stores byte s.accesses = if byte < 128 * blocks then 1 else 0

namespace Progress

variable {blocks bound : Nat} {s : State V} {head : List Line}

/-- A change of registers and of memory that keeps what the leaf passes need. -/
theorem of_general {t : State V} (h : Progress blocks bound s)
    (hgeneral : ∀ r ∈ [Gpr.rax, .rcx, .rdx, .r9, .r10], t.general r = s.general r)
    (hdefined : ∀ i, (t.output i).isSome)
    (hstored : ∀ byte, stores byte t.accesses = stores byte s.accesses) :
    Progress blocks bound t where
  index := (hgeneral .rax (by decide)).trans h.index
  bound := (hgeneral .rcx (by decide)).trans h.bound
  output := (hgeneral .rdx (by decide)).trans h.output
  input := by
    rw [hgeneral .r9 (by decide)]
    exact h.input
  positions := by
    rw [hgeneral .r10 (by decide)]
    exact h.positions
  defined := hdefined
  stored byte := (hstored byte).trans (h.stored byte)

/-- The input of a block is found through the index table. -/
theorem leafInput (hm : m.Readable) (h : Progress blocks bound s) (rest : List Line) :
    ∃ t, walk u m direction head (leafInput ++ rest) s = walk u m direction head rest t ∧
      Progress blocks bound t ∧ ∃ offset, t.general .r11 = .pointer .input offset := by
  obtain ⟨input, hinput⟩ := h.input
  obtain ⟨positions, hpositions⟩ := h.positions
  -- the table entry, then the address it stands for
  obtain ⟨place, hplace⟩ : ∃ place, s.value? (.indexed .r10 .rax .one 0) =
      some (.pointer .positions place) := by
    rw [State.value?_indexed h.index, hpositions]
    exact ⟨_, rfl⟩
  obtain ⟨n, hn⟩ := Option.isSome_iff_exists.1 (hm.positions place)
  let found := s.set .r11 (.number (n.setWidth 64))
  obtain ⟨start, hstart⟩ : ∃ start, found.value? (.indexed .r9 .r11 .eight 0) =
      some (.pointer .input start) := by
    rw [State.value?_indexed (s.set_same .r11 _)]
    exact ⟨_, by rw [show found.general .r9 = s.general .r9 from rfl, hinput]; rfl⟩
  refine ⟨found.set .r11 (.pointer .input start), ?_, ?_, start, State.set_same _ _ _⟩
  · exact (walk_load hplace hn).trans (walk_loadAddress hstart)
  · refine h.of_general (fun r hr => ?_) h.defined fun _ => rfl
    simp only [List.mem_cons, List.not_mem_nil, or_false] at hr
    rcases hr with rfl | rfl | rfl | rfl | rfl <;> rfl

/-- The loads of a block store nothing. -/
theorem loads (hm : m.Readable) (h : Progress blocks bound s)
    (hinput : ∃ offset, s.general .r11 = .pointer .input offset) {values : List UInt32}
    (hvalues : values.length = 8) (rest : List Line) :
    ∃ t, walk u m direction head ((fill values leafLoads ++ leafButterflies) ++ rest) s =
      walk u m direction head rest t ∧ Progress blocks bound t := by
  obtain ⟨offset, hinput⟩ := hinput
  obtain ⟨hoperands, hvector⟩ := fill_leafLoads hvalues
  have haccess : ∀ value : UInt32, s.access? false (.offset .r11 value.toBitVec.toInt) =
      some ⟨false, .input, offset + BitVec.ofInt 64 value.toBitVec.toInt⟩ := fun value => by
    simp [State.access?, State.value?_offset, hinput, Value.advance]
  obtain ⟨t, hwalk, htouched⟩ := walk_vectors (m := m) u direction head rest hvector (s := s)
    fun p hp => by
      rw [hoperands] at hp
      obtain ⟨value, -, rfl⟩ := List.mem_map.1 hp
      exact ⟨_, haccess value, hm.input _⟩
  refine ⟨t, hwalk, h.of_general (fun r _ => by rw [htouched.general])
    (fun i => (htouched.domain i).trans (h.defined i)) fun byte => ?_⟩
  rw [htouched.accesses, stores_append, stores_reverse, hoperands, stores_of_loads, Nat.zero_add]
  intro a ha
  obtain ⟨p, hp, ha⟩ := List.mem_filterMap.1 ha
  obtain ⟨value, -, rfl⟩ := List.mem_map.1 hp
  exact State.store_of_access? ha

/-- Where a block stores its results. -/
theorem access_result (h : Progress blocks bound s)
    (hplace : s.general .rsi = .number (BitVec.ofNat 64 (16 * blocks))) (i : Nat) :
    s.access? true (.indexed .rdx .rsi .eight (16 * i : Nat)) =
      some ⟨true, .output, BitVec.ofNat 64 (128 * blocks + 16 * i)⟩ := by
  refine (State.access?_indexed h.output hplace true (16 * i)).trans ?_
  rw [Scale.factor, show 0 + (16 * blocks * 8 + 16 * i) = 128 * blocks + 16 * i by omega]

/-- The results of a block follow on those of the blocks before. -/
theorem results (h : Progress blocks bound s)
    (hplace : s.general .rsi = .number (BitVec.ofNat 64 (16 * blocks)))
    (oddOutput : Bool) (rest : List Line) :
    ∃ t, walk u m direction head (leafResultStores oddOutput ++ rest) s =
      walk u m direction head rest t ∧ State.Touched (consecutive (128 * blocks) 8) s t := by
  obtain ⟨hoperands, hvector⟩ := operands_leafResultStores oddOutput
  obtain ⟨t, hwalk, htouched⟩ := walk_vectors (m := m) u direction head rest hvector (s := s)
    fun p hp => by
      rw [hoperands] at hp
      obtain ⟨i, hi, rfl⟩ := List.mem_map.1 hp
      have := List.mem_range.1 hi
      refine ⟨_, h.access_result hplace i, rfl, ?_⟩
      rw [vectorAt, if_pos (by rw [BitVec.toNat_ofNat]; omega)]
      exact h.defined _
  rw [hoperands, List.filterMap_map,
    show _ ∘ _ = some ∘ fun i => _ from funext (h.access_result hplace),
    List.filterMap_eq_map] at htouched
  exact ⟨t, hwalk, htouched⟩

/-- Once its results are stored, the index moves on to the next block. -/
theorem next {t : State V} (h : Progress blocks bound s) (hblocks : 128 * (blocks + 1) ≤ 2 ^ 64)
    (htouched : State.Touched (consecutive (128 * blocks) 8) s t) : Progress (blocks + 1) bound
      { t.set .rax ((t.general .rax).advance (BitVec.ofInt 64 4)) with below := none } where
  index := by
    show (t.set .rax _).general .rax = _
    rw [State.set_same, htouched.general, h.index]
    show Value.number (_ + BitVec.ofNat 64 4) = _
    rw [← BitVec.ofNat_add, Nat.mul_succ]
  bound := (congrFun htouched.general .rcx).trans h.bound
  output := (congrFun htouched.general .rdx).trans h.output
  input := by
    obtain ⟨offset, hinput⟩ := h.input
    exact ⟨offset, (congrFun htouched.general .r9).trans hinput⟩
  positions := by
    obtain ⟨offset, hpositions⟩ := h.positions
    exact ⟨offset, (congrFun htouched.general .r10).trans hpositions⟩
  defined i := (htouched.domain i).trans (h.defined i)
  stored byte := by
    show stores byte t.accesses = _
    rw [htouched.accesses, stores_append, stores_reverse, stores_consecutive (by omega), h.stored]
    split <;> split <;> split <;> omega

theorem leafStores (h : Progress blocks bound s) (hblocks : 128 * (blocks + 1) ≤ 2 ^ 64)
    (oddOutput : Bool) (rest : List Line) :
    ∃ t, walk u m direction head
        (leafStores oddOutput ++ (.plain (.addImmediate .qword .rax 4) :: rest)) s =
      walk u m direction head rest t ∧ Progress (blocks + 1) bound t := by
  let placed := s.set .rsi (.number (BitVec.ofNat 64 (16 * blocks)))
  have hvalue : s.value? (.scaled .rax .four) = some (.number (BitVec.ofNat 64 (16 * blocks))) := by
    rw [State.value?_scaled h.index, ← BitVec.ofNat_mul, Scale.factor,
      show 4 * blocks * 4 = 16 * blocks by omega]
  have hwalk : walk u m direction head (Machine.leafStores oddOutput ++
      (.plain (.addImmediate .qword .rax 4) :: rest)) s = walk u m direction head
        (leafResultStores oddOutput ++ (.plain (.addImmediate .qword .rax 4) :: rest)) placed :=
    walk_loadAddress hvalue
  have hplaced : Progress blocks bound placed :=
    h.of_general (fun r hr => s.set_other (by rintro rfl; revert hr; decide) _) h.defined
      fun _ => rfl
  obtain ⟨t, hstored, htouched⟩ := hplaced.results (s.set_same _ _) oddOutput
    (.plain (.addImmediate .qword .rax 4) :: rest)
  exact ⟨_, (hwalk.trans hstored).trans walk_add, hplaced.next hblocks htouched⟩

/-- One more block. -/
theorem block (u : VectorUnit V) (direction : Direction) (head : List Line) (hm : m.Readable)
    (h : Progress blocks bound s) (hblocks : 128 * (blocks + 1) ≤ 2 ^ 64) (pass : Pass)
    {values : List UInt32} (hvalues : values.length = 8) (rest : List Line) :
    ∃ t, walk u m direction head (fill values (leafBlock pass ++ rest)) s =
      walk u m direction head (fill [] rest) t ∧ Progress (blocks + 1) bound t := by
  rw [fill_leafBlock pass hvalues]
  obtain ⟨found, hfound, hprogress, hinput⟩ := h.leafInput hm _
  obtain ⟨loaded, hloaded, hprogress⟩ := hprogress.loads hm hinput hvalues _
  obtain ⟨stored, hstored, hprogress⟩ := hprogress.leafStores hblocks pass.oddOutput (fill [] rest)
  exact ⟨stored, (hfound.trans hloaded).trans hstored, hprogress⟩

/-- One turn of a looping pass. -/
theorem turn (u : VectorUnit V) (direction : Direction) (hm : m.Readable)
    (h : Progress blocks bound s) (hblocks : blocks < 2 ^ 32) (hbound : bound < 2 ^ 32) (pass : Pass)
    {values : List UInt32} (hvalues : values.length = 8) :
    let code := fill values (leafBlock pass ++ [.plain (.compare .rax .rcx), .loopBack])
    ∃ t, walk u m direction code code s =
        some (if 4 * (blocks + 1) < bound then .again code t else .returned t) ∧
      Progress (blocks + 1) bound t := by
  intro code
  obtain ⟨t, hwalk, hprogress⟩ := h.block u direction code hm (by omega) pass hvalues
    [.plain (.compare .rax .rcx), .loopBack]
  have hcompare : (t.general .rax).below? (t.general .rcx) =
      some (decide (4 * (blocks + 1) < bound)) := by
    rw [hprogress.index, hprogress.bound, Value.below?_number (by omega) (by omega)]
  rw [fill_nil, walk_loopEnd hcompare fun _ => rfl] at hwalk
  exact ⟨_, hwalk,
    hprogress.of_general (fun _ _ => rfl) hprogress.defined fun _ => rfl⟩

/-- A looping pass runs a block at least once and until the index has reached the bound. -/
theorem loop (hm : m.Readable) (h : Progress blocks bound s) (hbound : bound < 2 ^ 32)
    {total : Nat} (htotal : total = max (blocks + 1) ((bound + 3) / 4)) (hsmall : total ≤ 2 ^ 32)
    (pass : Pass) {values : List UInt32} (hvalues : values.length = 8) :
    let code := fill values (leafBlock pass ++ [.plain (.compare .rax .rcx), .loopBack])
    ∃ t, run u m direction (total - blocks - 1) code code s = .ok t ∧ Progress total bound t := by
  intro code
  have hturn : ∀ k s, k < total → blocks ≤ k ∧ Progress k bound s → ∃ t,
      walk u m direction code code s = some (if k + 1 < total then .again code t else .returned t) ∧
        blocks ≤ k + 1 ∧ Progress (k + 1) bound t := fun k s hk hinv => by
    obtain ⟨t, hwalk, hprogress⟩ :=
      hinv.2.turn u direction hm (by omega) hbound pass hvalues
    rw [if_congr (show 4 * (k + 1) < bound ↔ k + 1 < total by omega) rfl rfl] at hwalk
    exact ⟨t, hwalk, by omega, hprogress⟩
  obtain ⟨t, hrun, -, hprogress⟩ := run_counted (fun k s => blocks ≤ k ∧ Progress k bound s) hturn
    (by omega) ⟨Nat.le_refl _, h⟩
  exact ⟨t, hrun, hprogress⟩

/-- A pass runs its blocks: one, or as many as it takes to reach the bound. -/
theorem pass (hm : m.Readable) (h : Progress blocks bound s) (hbound : bound < 2 ^ 32)
    (step : Step) (hblocks : step.blocksFrom bound blocks ≤ 2 ^ 32) {values : List UInt32}
    (hvalues : values.length = 8) :
    ∃ t, Reaches u m direction [fill values (leafPass step.pass)] s t ∧
      Progress (step.blocksFrom bound blocks) bound t := by
  have hmore := step.lt_blocksFrom bound blocks
  unfold leafPass
  cases hloops : step.pass.loops with
  | false =>
    obtain ⟨t, hwalk, hprogress⟩ := h.block u direction [] hm (by omega) step.pass hvalues []
    rw [List.append_nil, fill_nil] at hwalk
    rw [Step.blocksFrom, hloops]
    exact ⟨t, .of_run (run_of_returned 0 hwalk), hprogress⟩
  | true =>
    have htotal : step.blocksFrom bound blocks = max (blocks + 1) ((bound + 3) / 4) := by
      rw [Step.blocksFrom, hloops, if_pos rfl]
    obtain ⟨t, hrun, hprogress⟩ := h.loop (u := u) hm hbound htotal hblocks step.pass hvalues
    refine ⟨t, .of_run ((run_congr ?_ _).trans hrun), hprogress⟩
    exact congrArg (walk u m direction [] · s) (fill_loopHead _ _)

/-- A loop bound is loaded. -/
theorem load (h : Progress blocks bound s) {next : Nat} (hnext : next < 2 ^ 32) :
    ∃ t, Reaches u m direction [loadBound next] s t ∧ Progress blocks next t := by
  refine ⟨_, .of_run (run_of_returned 0 (walk_of_exec rfl rfl)), h.index, ?_, h.output, h.input,
    h.positions, h.defined, h.stored⟩
  exact congrArg Value.number (setWidth_toBitVec hnext)

/-- One step of a schedule. -/
theorem step (hm : m.Readable) (h : Progress blocks bound s) (size : Nat) (step : Step)
    (hbound : step.boundFrom bound < 2 ^ 32)
    (hblocks : step.blocksFrom (step.boundFrom bound) blocks ≤ 2 ^ 32) :
    ∃ t, Reaches u m direction (stepCode size step) s t ∧
      Progress (step.blocksFrom (step.boundFrom bound) blocks) (step.boundFrom bound) t := by
  have hvalues : (step.order.values size).length = 8 := by simp [Leaf.OffsetOrder.values]
  unfold stepCode
  unfold Step.boundFrom at hbound hblocks ⊢
  cases hreload : step.reload with
  | none =>
    rw [hreload] at hbound hblocks
    exact h.pass hm hbound step hblocks hvalues
  | some next =>
    rw [hreload] at hbound hblocks
    obtain ⟨loaded, hload, hprogress⟩ := h.load (u := u) (m := m) hbound
    obtain ⟨t, hpass, hprogress⟩ := hprogress.pass hm hbound step hblocks hvalues
    exact ⟨t, hload.append hpass, hprogress⟩

end Progress

/-! ## All passes -/

/-- The leaf passes up to some step of a schedule. -/
theorem Progress.steps (hm : m.Readable) (size : Nat) {steps : List Step} {blocks bound : Nat}
    {s : State V} (h : Progress blocks bound s) (hbound : bound < 2 ^ 32)
    (hreload : ∀ step ∈ steps, ∀ next, step.reload = some next → next < 2 ^ 32)
    (hblocks : blocksAfter steps bound blocks ≤ 2 ^ 32) :
    ∃ t last, Reaches u m direction (steps.flatMap (stepCode size)) s t ∧
      Progress (blocksAfter steps bound blocks) last t := by
  induction steps generalizing blocks bound s with
  | nil => exact ⟨s, bound, ⟨0, fun _ _ => rfl⟩, h⟩
  | cons step rest ih =>
    have hnext : step.boundFrom bound < 2 ^ 32 := by
      cases hr : step.reload with
      | none => rwa [Step.boundFrom, hr]
      | some next =>
        rw [Step.boundFrom, hr]
        exact hreload step List.mem_cons_self next hr
    obtain ⟨t, hstep, hprogress⟩ := h.step (u := u) hm size step hnext
      (Nat.le_trans (le_blocksAfter rest _ _) hblocks)
    obtain ⟨v, last, hrest, hprogress⟩ := ih hprogress hnext
      (fun step hs => hreload step (List.mem_cons_of_mem _ hs)) hblocks
    exact ⟨v, last, hstep.append hrest, hprogress⟩

/-- A routine is about to run its leaf passes. All of memory can be written, so that what goes past
the end of the output is seen. -/
structure State.Ready (s : State V) : Prop where
  output : s.general .rbx = .pointer .output 0
  input : ∃ offset, s.general .r9 = .pointer .input offset
  positions : ∃ offset, s.general .r10 = .pointer .positions offset
  defined : ∀ i, (s.output i).isSome
  accesses : s.accesses = []

/-- The first loop bound is loaded, and the index starts at zero. -/
theorem State.Ready.progress {s : State V} (h : s.Ready) {bound : Nat} (hbound : bound < 2 ^ 32) :
    ∃ t, Reaches u m direction [loadBound bound, leafInit] s t ∧ Progress 0 bound t := by
  have hload : Reaches u m direction [loadBound bound] s _ :=
    .of_run (run_of_returned 0 (walk_of_exec rfl rfl))
  have hinit : ∀ v : State V, Reaches u m direction [leafInit] v _ := fun v =>
    .of_run (run_of_returned 0 ((walk_of_exec rfl rfl).trans walk_move))
  refine ⟨_, hload.append (hinit _), rfl, ?_, h.output, h.input, h.positions, h.defined,
    fun byte => ?_⟩
  · exact congrArg Value.number (setWidth_toBitVec hbound)
  · show stores byte s.accesses = _
    rw [h.accesses]
    rfl

/-- All leaf passes of a schedule. -/
theorem State.Ready.stage (u : VectorUnit V) (direction : Direction) {s : State V} (h : s.Ready)
    (hm : m.Readable) (size : Nat) {schedule : Schedule} (hrange : schedule.InRange)
    (hblocks : blocksAfter schedule.steps schedule.initial 0 ≤ 2 ^ 32) :
    ∃ t, Reaches u m direction (leafStage size schedule) s t ∧ ∀ byte, stores byte t.accesses =
      if byte < 128 * blocksAfter schedule.steps schedule.initial 0 then 1 else 0 := by
  obtain ⟨ready, hinit, hprogress⟩ := h.progress (u := u) (m := m) hrange.initial
  obtain ⟨t, last, hsteps, hprogress⟩ := hprogress.steps hm size hrange.initial hrange.reload hblocks
  exact ⟨t, hinit.append hsteps, hprogress.stored⟩

/-- The leaf passes of a transform with reference parameters store 64 bytes for every leaf, from the
start of the output on, each of them once. That is the output for leaves of eight elements only. -/
theorem leaf_passes_store {size leaf : Nat} {params : Parameters}
    (hparams : Parameters.make size leaf = .ok params) :
    ∃ schedule, Schedule.make size params.iterations = .ok schedule ∧
      ∀ {V : Type u} (u : VectorUnit V) (m : Memory V) (direction : Direction) (s : State V),
        m.Readable → s.Ready → ∃ t, Reaches u m direction (leafStage size schedule) s t ∧
          (∀ byte, stores byte t.accesses = if byte < 64 * (size / leaf) then 1 else 0) ∧
          ((∀ byte, stores byte t.accesses = if byte < 8 * size then 1 else 0) ↔ leaf = 8) := by
  obtain ⟨schedule, hschedule, hrange, hblocks⟩ := Schedule.of_reference hparams
  obtain ⟨a, b, rfl, rfl, -, hba, ha, -⟩ := Parameters.eq_of_make hparams
  have hleaves : 2 ^ a = 2 ^ b * (2 ^ a / 2 ^ b) :=
    (Nat.mul_div_cancel' (Nat.pow_dvd_pow 2 (by omega))).symm
  have hmax : 2 ^ a ≤ 2 ^ 26 := Nat.pow_le_pow_right (by decide) ha
  have hfew := Nat.div_le_self (2 ^ a) (2 ^ b)
  have hpos : 0 < 2 ^ a / 2 ^ b := Nat.div_pos (Nat.pow_le_pow_right (by decide) (by omega))
    (Nat.two_pow_pos b)
  generalize 2 ^ a / 2 ^ b = leaves at *
  refine ⟨schedule, hschedule, fun u m direction s hm hready => ?_⟩
  obtain ⟨t, hreaches, hstores⟩ := hready.stage u direction hm (2 ^ a) hrange (by omega)
  rw [show 128 * blocksAfter schedule.steps schedule.initial 0 = 64 * leaves by omega] at hstores
  refine ⟨t, hreaches, hstores, fun hexact => ?_, fun height => ?_⟩
  · have hbytes := stores_range_unique hstores hexact
    rw [hleaves] at hbytes
    exact Nat.eq_of_mul_eq_mul_right hpos (by omega)
  · rw [hleaves, height, show 8 * (8 * leaves) = 64 * leaves by omega]
    exact hstores

/-- The registers of a routine that is about to run its leaf passes. -/
def readyRegisters : Gpr → Value
  | .rbx => .pointer .output 0
  | .r9 => .pointer .input 0
  | .r10 => .pointer .positions 0
  | _ => .number 0

/-- With leaves of eight elements, the passes of 32 elements store each of their 256 bytes once and
nothing else. -/
theorem leaf_passes_store_of_32 :
    ∃ params, Parameters.make 32 8 = .ok params ∧
      Memory.blank.Readable ∧ (State.blank readyRegisters).Ready ∧
      ∃ schedule, Schedule.make 32 params.iterations = .ok schedule ∧
        ∃ t, Reaches .blank .blank .inverse (leafStage 32 schedule) (.blank readyRegisters) t ∧
          ∀ byte, stores byte t.accesses = if byte < 256 then 1 else 0 := by
  have hparams : Parameters.make 32 8 = .ok ⟨32, 8, ⟨1, 0⟩, [0, 4]⟩ :=
    eq_ok_of_toOption (by decide +kernel)
  have hm : Memory.blank.Readable := ⟨fun _ => rfl, fun _ => rfl⟩
  have hready : (State.blank readyRegisters).Ready :=
    ⟨rfl, ⟨0, rfl⟩, ⟨0, rfl⟩, fun _ => rfl, rfl⟩
  obtain ⟨schedule, hschedule, h⟩ := leaf_passes_store hparams
  obtain ⟨t, hreaches, -, hexact⟩ := h .blank .blank .inverse (.blank readyRegisters) hm hready
  exact ⟨_, hparams, hm, hready, schedule, hschedule, t, hreaches, hexact.2 rfl⟩

/-- With leaves of four elements, the passes of 32 elements store a byte past their 256. -/
theorem small_leaves_overrun :
    ∃ params schedule, Parameters.make 32 4 = .ok params ∧
      Schedule.make 32 params.iterations = .ok schedule ∧
      (runAll .blank .blank .forward 0 (leafStage 32 schedule) (.blank readyRegisters)).map
        (fun t => stores 256 t.accesses) = .ok 1 :=
  ⟨⟨32, 4, ⟨1, 1⟩, [0, 2, 14]⟩, .exact 32 1 1, eq_ok_of_toOption (by decide +kernel),
    eq_ok_of_toOption (by decide +kernel), eq_ok_of_toOption (by decide +kernel)⟩

end SplitRadix.Machine

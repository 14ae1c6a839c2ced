import SplitRadix.Proofs.Execution
import SplitRadix.Proofs.Reference

/-!
# What the base cases touch

A base case works on four quarters of its node and loads the twiddles of the node's level. Output and
twiddles start at multiples of 16 bytes, and so has every vector to. With leaves of four elements or
more every vector it touches does, and lies in the node's own part of the output or in the twiddles of
its level. With leaves of two elements no call comes to its end: the quarters of the smallest nodes
are half a vector apart, and the twiddles of all levels but the first start in the middle of a vector.

* `Access.Allowed`: the accesses that a call may make.
* `CallSite`: the numbers of a call.
* `Confined`: only such accesses have been made.
* `base_cases_stay_inside`: all calls of a transform.
-/

namespace SplitRadix.Machine

open Transform (Parameters levelStart levelStart_le levelWidth_succ levelStart_succ_mod_two)

universe u

variable {V : Type u} {u : VectorUnit V} {m : Memory V} {direction : Direction}

/-! ## Calls -/

/-- The base case that is called for a node. -/
def calledCode (leaf : Nat) (node : Node) : List Line :=
  if node.size = 2 * leaf then baseCase4 else baseCase8

/-- The accesses that a call may make: vectors in the node's own part of the output, and loads of
twiddles of its level. -/
def Access.Allowed (leaf level : Nat) (node : Node) (a : Access) : Prop :=
  a.offset.toNat % 16 = 0 ∧
    (a.segment = .output ∧ 8 * node.offset ≤ a.offset.toNat ∧
        a.offset.toNat + 16 ≤ 8 * (node.offset + node.size) ∨
      a.segment = .twiddles ∧ a.store = false ∧ 8 * levelStart leaf level ≤ a.offset.toNat ∧
        a.offset.toNat + 16 ≤ 8 * levelStart leaf (level + 1))

/-- A base case is called for a node, with its twiddles at `lut`. -/
structure State.Called (node : Node) (lut : Nat) (s : State V) : Prop where
  size : s.general .rcx = .number (BitVec.ofNat 64 node.size)
  output : s.general .rdx = .pointer .output (BitVec.ofNat 64 (8 * node.offset))
  twiddles : s.general .r8 = .pointer .twiddles (BitVec.ofNat 64 lut)
  accesses : s.accesses = []

/-- The numbers of a call. -/
structure CallSite (leaf level : Nat) (node : Node) : Prop where
  two_or_more : leaf = 2 ∨ leaf % 4 = 0
  positive : 0 < leaf
  size : node.size = 2 * leaf * 2 ^ level
  offset : node.offset % 4 = 0
  small : node.offset + node.size ≤ 2 ^ 26

namespace CallSite

variable {leaf level : Nat} {node : Node}

/-- The calls of a transform with reference parameters. -/
theorem of_mem_postOrder {size : Nat} {params : Parameters}
    (hparams : Parameters.make size leaf = .ok params)
    (hnode : node ∈ Decomposition.postOrder leaf size 0) :
    ∃ level, CallSite leaf level node ∧
      params.displacement node.size = .ok (some (8 * levelStart leaf level)) := by
  obtain ⟨a, b, rfl, rfl, hb, hba, ha, hp⟩ := Parameters.eq_of_make hparams
  have hreference : params.IsReference a b := by
    rw [hp]
    exact ⟨rfl, rfl, ha⟩
  obtain ⟨level, hlevel, hsize⟩ := Decomposition.exists_level hnode
  have hdisplacement := (hreference.displacement hlevel).1
  have hfour : 4 ∣ node.size := by
    rw [hsize]
    exact Nat.pow_dvd_pow 2 (show 2 ≤ b + level + 1 by omega)
  have hmax : 2 ^ a ≤ 2 ^ 26 := Nat.pow_le_pow_right (by decide) ha
  have hinside := Decomposition.mem_postOrder hnode
  refine ⟨level, ⟨?_, Nat.two_pow_pos b, ?_, ?_, by omega⟩, by rw [hsize, hdisplacement]⟩
  · rcases Nat.eq_or_lt_of_le hb with rfl | hb
    · exact .inl rfl
    · exact .inr (Nat.mod_eq_zero_of_dvd (Nat.pow_dvd_pow 2 hb))
  · rw [hsize, Nat.pow_succ, Nat.pow_add]
    ac_rfl
  · exact Nat.mod_eq_zero_of_dvd (Nat.dvd_trans hfour (Decomposition.size_dvd_offset hnode))

/-- The twiddles of the calls lie in the first half of memory. -/
theorem levelStart_small (h : CallSite leaf level node) : levelStart leaf (level + 1) ≤ 2 ^ 27 := by
  have hstart := levelStart_le leaf (level + 1)
  rw [Nat.pow_succ, ← Nat.mul_assoc, ← h.size] at hstart
  have := h.small
  omega

/-- With leaves of four elements or more, the quarters of a node are whole vectors. -/
theorem size_mod (h : CallSite leaf level node) (hleaf : leaf % 4 = 0) : node.size % 8 = 0 := by
  obtain ⟨quarter, rfl⟩ : ∃ quarter, leaf = 4 * quarter := ⟨leaf / 4, by omega⟩
  rw [h.size, show 2 * (4 * quarter) * 2 ^ level = 8 * (quarter * 2 ^ level) by
    rw [← Nat.mul_assoc, ← Nat.mul_assoc, Nat.mul_assoc 8]]
  exact Nat.mul_mod_right 8 _

theorem size_pos (h : CallSite leaf level node) : 0 < node.size := by
  rw [h.size]
  have := h.positive
  exact Nat.mul_pos (by omega) (Nat.two_pow_pos _)

/-- With leaves of four elements or more, every level starts with a vector. -/
theorem levelStart_mod (h : CallSite leaf level node) (hleaf : leaf % 4 = 0) :
    8 * levelStart leaf level % 16 = 0 := by
  cases level with
  | zero => rfl
  | succ level =>
    have := levelStart_succ_mod_two (show leaf % 2 = 0 by omega) level
    omega

/-- The smallest nodes are those of the first level. -/
theorem size_ne (h : CallSite leaf (level + 1) node) : node.size ≠ 2 * leaf := by
  have hpositive := h.positive
  have hmore : 2 * leaf ≤ 2 * leaf * 2 ^ level :=
    Nat.le_mul_of_pos_right _ (Nat.two_pow_pos level)
  rw [h.size, Nat.pow_succ, ← Nat.mul_assoc]
  omega

/-- Above the first level there are six bytes of twiddles for every element of a node. -/
theorem levelStart_succ (h : CallSite leaf (level + 1) node) :
    8 * levelStart leaf (level + 1 + 1) = 8 * levelStart leaf (level + 1) + 6 * node.size := by
  have hsize : node.size = 2 * 2 * (leaf * 2 ^ level) := by
    rw [h.size, Nat.pow_succ]
    ac_rfl
  rw [levelStart, levelWidth_succ]
  omega

end CallSite

/-! ## Confined runs -/

/-- Of the allowed accesses, which do not fault, `count` have been made, and no others. -/
structure State.Confined (m : Memory V) (allowed : Access → Prop) (count : Nat) (s : State V) :
    Prop where
  admits : ∀ a, allowed a → s.Admits m a
  made : ∀ a ∈ s.accesses, allowed a
  length : s.accesses.length = count

/-- Only registers and flags differ. -/
structure State.SameMemory (s t : State V) : Prop where
  output : t.output = s.output
  accesses : t.accesses = s.accesses

theorem State.Confined.of_sameMemory {allowed : Access → Prop} {count : Nat} {s t : State V}
    (h : s.Confined m allowed count) (hsame : s.SameMemory t) : t.Confined m allowed count where
  admits a ha := (admits_iff (fun i => by rw [hsame.output]) a).2 (h.admits a ha)
  made := hsame.accesses ▸ h.made
  length := hsame.accesses ▸ h.length

theorem State.Called.confined {node : Node} {lut : Nat} {s : State V} (h : s.Called node lut)
    {allowed : Access → Prop} (hadmits : ∀ a, allowed a → s.Admits m a) :
    s.Confined m allowed 0 := by
  refine ⟨hadmits, fun a ha => ?_, by rw [h.accesses, List.length_nil]⟩
  rw [h.accesses] at ha
  cases ha

/-- A stretch of vector instructions with allowed operands. -/
theorem State.Confined.walk (u : VectorUnit V) (direction : Direction) (head rest : List Line)
    {allowed : Access → Prop} {count : Nat} {s : State V} (h : s.Confined m allowed count)
    {code : List Line} (hcode : ∀ line ∈ code, line.isVector = true)
    (hoperands : ∀ p ∈ operands code, ∃ a, s.access? p.1 p.2 = some a ∧ allowed a) :
    ∃ t, walk u m direction head (code ++ rest) s = walk u m direction head rest t ∧
      t.general = s.general ∧ t.Confined m allowed (count + (operands code).length) := by
  obtain ⟨t, hwalk, htouched⟩ := walk_vectors (m := m) u direction head rest hcode
    fun p hp => (hoperands p hp).imp fun a ha => ⟨ha.1, h.admits a ha.2⟩
  refine ⟨t, hwalk, htouched.general, fun a ha => (admits_iff htouched.domain a).2 (h.admits a ha),
    fun a ha => ?_, ?_⟩
  · rw [htouched.accesses, List.mem_append, List.mem_reverse] at ha
    rcases ha with ha | ha
    · obtain ⟨p, hp, ha⟩ := List.mem_filterMap.1 ha
      obtain ⟨b, hb, hallowed⟩ := hoperands p hp
      rw [ha] at hb
      cases hb
      exact hallowed
    · exact h.made a ha
  · have hall : (operands code).countP (fun p => (s.access? p.1 p.2).isSome) =
        (operands code).length := List.countP_eq_length.2 fun p hp => by
      obtain ⟨b, hb, -⟩ := hoperands p hp
      rw [hb]
      rfl
    rw [htouched.accesses, List.length_append, List.length_reverse, h.length,
      List.length_filterMap_eq_countP, hall, Nat.add_comm]

/-! ## Radix-4 steps -/

/-- The vector instructions of a kernel. -/
def vectorLines (code : List Line) : List Line := code.filter Line.isVector

theorem isVector_vectorLines (code : List Line) : ∀ line ∈ vectorLines code, line.isVector = true :=
  fun _ hline => (List.mem_filter.1 hline).2

/-- The places of the four quarters. -/
def quarters (start thrice : Gpr) : List Address :=
  [.offset start 0, .indexed start .rax .one 0, .indexed start .rax .two 0,
   .indexed start thrice .one 0]

/-- The operands of a radix-4 step: the quarters, the twiddles, and the quarters again. -/
def stepOperands (start thrice : Gpr) (twiddles : List Address) : List (Bool × Address) :=
  (quarters start thrice).map (false, ·) ++ twiddles.map (false, ·) ++
    (quarters start thrice).map (true, ·)

theorem operands_baseCase4 :
    operands (vectorLines baseCase4) = stepOperands .rdx .rsi [.offset .r8 0] := rfl

theorem operands_baseCase8 :
    operands (vectorLines baseCase8) = stepOperands .r11 .r10 [.offset .rsi 0, .offset .rsi 16] := rfl

/-- The registers of a radix-4 step on quarters `gap` bytes apart. -/
structure State.AtQuarters (start thrice : Gpr) (place gap : Nat) (s : State V) : Prop where
  start : s.general start = .pointer .output (BitVec.ofNat 64 place)
  stride : s.general .rax = .number (BitVec.ofNat 64 gap)
  thrice : s.general thrice = .number (BitVec.ofNat 64 (3 * gap))

namespace State.AtQuarters

variable {start thrice : Gpr} {place gap : Nat} {s : State V}

theorem access (h : s.AtQuarters start thrice place gap) (store : Bool) {a : Address}
    (ha : a ∈ quarters start thrice) :
    ∃ i < 4, s.access? store a = some ⟨store, .output, BitVec.ofNat 64 (place + gap * i)⟩ := by
  simp only [quarters, List.mem_cons, List.not_mem_nil, or_false] at ha
  rcases ha with rfl | rfl | rfl | rfl
  · exact ⟨0, by decide, access?_offset h.start store 0⟩
  · exact ⟨1, by decide, access?_indexed h.start h.stride store 0⟩
  · exact ⟨2, by decide, access?_indexed h.start h.stride store 0⟩
  · refine ⟨3, by decide, (access?_indexed h.start h.thrice store 0).trans ?_⟩
    rw [Scale.factor, Nat.mul_one, Nat.add_zero, Nat.mul_comm]

end State.AtQuarters

/-- A vector at a multiple of 16 bytes in the node's part of the output. -/
theorem allowed_output {leaf level place : Nat} {node : Node} (store : Bool)
    (hsmall : node.offset + node.size ≤ 2 ^ 26) (haligned : place % 16 = 0)
    (hlow : 8 * node.offset ≤ place) (hhigh : place + 16 ≤ 8 * (node.offset + node.size)) :
    Access.Allowed leaf level node ⟨store, .output, BitVec.ofNat 64 place⟩ := by
  have hplace : (BitVec.ofNat 64 place).toNat = place := Nat.mod_eq_of_lt (by omega)
  unfold Access.Allowed
  rw [hplace]
  exact ⟨haligned, .inl ⟨rfl, hlow, hhigh⟩⟩

theorem allowed_twiddles {leaf level place : Nat} {node : Node}
    (hsmall : levelStart leaf (level + 1) ≤ 2 ^ 27) (haligned : place % 16 = 0)
    (hlow : 8 * levelStart leaf level ≤ place)
    (hhigh : place + 16 ≤ 8 * levelStart leaf (level + 1)) :
    Access.Allowed leaf level node ⟨false, .twiddles, BitVec.ofNat 64 place⟩ := by
  have hplace : (BitVec.ofNat 64 place).toNat = place := Nat.mod_eq_of_lt (by omega)
  unfold Access.Allowed
  rw [hplace]
  exact ⟨haligned, .inr ⟨rfl, rfl, hlow, hhigh⟩⟩

/-- The operands of a radix-4 step are allowed if its quarters are inside the node's part. -/
theorem CallSite.step_allowed {leaf level : Nat} {node : Node} (h : CallSite leaf level node)
    {start thrice : Gpr} {place : Nat} {s : State V}
    (hquarters : s.AtQuarters start thrice place (2 * node.size)) (hleaf : leaf % 4 = 0)
    (haligned : place % 16 = 0) (hlow : 8 * node.offset ≤ place)
    (hhigh : place + 16 ≤ 8 * node.offset + 2 * node.size) {twiddles : List Address}
    (htwiddles : ∀ a ∈ twiddles, ∃ access, s.access? false a = some access ∧
      access.Allowed leaf level node) :
    ∀ p ∈ stepOperands start thrice twiddles, ∃ access, s.access? p.1 p.2 = some access ∧
      access.Allowed leaf level node := by
  have hquarter : ∀ store, ∀ a ∈ quarters start thrice, ∃ access, s.access? store a = some access ∧
      access.Allowed leaf level node := fun store a ha => by
    obtain ⟨i, hi, haccess⟩ := hquarters.access store ha
    have hsize := h.size_mod hleaf
    have hstep : 2 * node.size * i ≤ 2 * node.size * 3 := Nat.mul_le_mul_left _ (by omega)
    refine ⟨_, haccess, allowed_output store h.small ?_ (by omega) (by omega)⟩
    obtain ⟨eighth, heighth⟩ : ∃ eighth, node.size = 8 * eighth := ⟨node.size / 8, by omega⟩
    have hgap : 2 * node.size * i = 16 * (eighth * i) := by
      rw [heighth, show 2 * (8 * eighth) = 16 * eighth by omega, Nat.mul_assoc]
    omega
  intro p hp
  simp only [stepOperands, List.mem_append, List.mem_map] at hp
  rcases hp with (⟨a, ha, rfl⟩ | ⟨a, ha, rfl⟩) | ⟨a, ha, rfl⟩
  · exact hquarter false a ha
  · exact htwiddles a ha
  · exact hquarter true a ha

/-! ## Entries -/

/-- A register added to a multiple of itself. -/
theorem State.value?_self {r : Gpr} {n : Nat} {s : State V}
    (h : s.general r = .number (BitVec.ofNat 64 n)) (scale : Scale) :
    s.value? (.indexed r r scale 0) = some (.number (BitVec.ofNat 64 (n + n * scale.factor))) := by
  refine (value?_indexed_ofNat h 0).trans ?_
  rw [h, Value.advance_number, Nat.add_zero]

/-- Both base cases start by computing how far the quarters are apart. -/
theorem State.Called.strides (u : VectorUnit V) (m : Memory V) (direction : Direction)
    (head rest : List Line) {node : Node} {lut : Nat} {s : State V} (h : s.Called node lut)
    {thrice : Gpr} (hthrice : thrice ∉ [Gpr.rax, .rdx, .r8]) :
    ∃ t, walk u m direction head (.plain (.loadAddress .rax (.indexed .rcx .rcx .one 0)) ::
        .plain (.loadAddress thrice (.indexed .rax .rax .two 0)) :: rest) s =
        walk u m direction head rest t ∧
      t.AtQuarters .rdx thrice (8 * node.offset) (2 * node.size) ∧
      t.general .r8 = .pointer .twiddles (BitVec.ofNat 64 lut) ∧ s.SameMemory t := by
  simp only [List.mem_cons, List.not_mem_nil, or_false, not_or] at hthrice
  obtain ⟨hrax, hrdx, hr8⟩ := hthrice
  let strided := s.set .rax (.number (BitVec.ofNat 64 (2 * node.size)))
  have hdouble : s.value? (.indexed .rcx .rcx .one 0) =
      some (.number (BitVec.ofNat 64 (2 * node.size))) := by
    rw [State.value?_self h.size, Scale.factor, Nat.mul_one, ← Nat.two_mul]
  have htriple : strided.value? (.indexed .rax .rax .two 0) =
      some (.number (BitVec.ofNat 64 (3 * (2 * node.size)))) := by
    rw [State.value?_self (s.set_same .rax _), Scale.factor,
      show 2 * node.size + 2 * node.size * 2 = 3 * (2 * node.size) by omega]
  refine ⟨_, (walk_loadAddress hdouble).trans (walk_loadAddress htriple), ⟨?_, ?_, ?_⟩, ?_, rfl, rfl⟩
  · exact (strided.set_other (Ne.symm hrdx) _).trans h.output
  · exact (strided.set_other (Ne.symm hrax) _).trans (s.set_same _ _)
  · exact strided.set_same _ _
  · exact (strided.set_other (Ne.symm hr8) _).trans h.twiddles

/-- The other base case before its radix-4 step number `k`. -/
structure State.Round (node : Node) (lut k : Nat) (s : State V) : Prop where
  quarters : s.AtQuarters .r11 .r10 (8 * node.offset + 16 * k) (2 * node.size)
  twiddles : s.general .rsi = .pointer .twiddles (BitVec.ofNat 64 (lut + 32 * k))
  stop : s.general .rdi = .pointer .output (BitVec.ofNat 64 (8 * node.offset + 2 * node.size))

theorem State.Round.of_general {node : Node} {lut k : Nat} {s t : State V} (h : s.Round node lut k)
    (hgeneral : t.general = s.general) : t.Round node lut k := by
  obtain ⟨⟨hstart, hstride, hthrice⟩, htwiddles, hstop⟩ := h
  rw [← hgeneral] at hstart hstride hthrice htwiddles hstop
  exact ⟨⟨hstart, hstride, hthrice⟩, htwiddles, hstop⟩

/-- The end of the loop of the other base case. -/
def loopEnd8 : List Line :=
  [.plain (.addImmediate .qword .r11 16), .plain (.addImmediate .qword .rsi 32),
   .plain (.compare .r11 .rdi), .loopBack, .plain .ret]

def loop8 : List Line := vectorLines baseCase8 ++ loopEnd8

/-- After a step, the places of its quarters and twiddles move on, up to the end of the first
quarter. -/
theorem State.Round.next (u : VectorUnit V) (m : Memory V) (direction : Direction) {node : Node}
    {lut k : Nat} {s : State V} (h : s.Round node lut k) (hsize : node.size % 8 = 0)
    (hsmall : node.offset + node.size ≤ 2 ^ 26) (hk : k < node.size / 8) (head : List Line) :
    ∃ t, walk u m direction head loopEnd8 s =
        some (if k + 1 < node.size / 8 then .again head t else .returned t) ∧
      t.Round node lut (k + 1) ∧ s.SameMemory t := by
  let further : State V :=
    { s.set .r11 ((s.general .r11).advance (BitVec.ofInt 64 16)) with below := none }
  let next : State V :=
    { further.set .rsi ((further.general .rsi).advance (BitVec.ofInt 64 32)) with below := none }
  have hstart : next.general .r11 =
      .pointer .output (BitVec.ofNat 64 (8 * node.offset + 16 * (k + 1))) := by
    show (s.general .r11).advance (BitVec.ofNat 64 16) = _
    rw [h.quarters.start, Value.advance_pointer, Nat.mul_succ, Nat.add_assoc]
  have htwiddles : next.general .rsi = .pointer .twiddles (BitVec.ofNat 64 (lut + 32 * (k + 1))) := by
    show (s.general .rsi).advance (BitVec.ofNat 64 32) = _
    rw [h.twiddles, Value.advance_pointer, Nat.mul_succ, Nat.add_assoc]
  have hcompare : (next.general .r11).below? (next.general .rdi) =
      some (decide (k + 1 < node.size / 8)) := by
    rw [hstart, show next.general .rdi = _ from h.stop,
      Value.below?_pointer _ (by omega) (by omega)]
    exact congrArg some (decide_eq_decide.2 (by omega))
  exact ⟨_, (walk_add.trans walk_add).trans (walk_loopEnd hcompare fun _ => rfl),
    ⟨⟨hstart, h.quarters.stride, h.quarters.thrice⟩, htwiddles, h.stop⟩, rfl, rfl⟩

/-- The other base case starts with the first elements of the quarters. -/
theorem State.Called.enter (u : VectorUnit V) (m : Memory V) (direction : Direction)
    (head : List Line) {node : Node} {lut : Nat} {s : State V} (h : s.Called node lut) :
    ∃ t, walk u m direction head baseCase8 s = walk u m direction loop8 loop8 t ∧
      t.Round node lut 0 ∧ s.SameMemory t := by
  have hten : Gpr.r10 ∉ [Gpr.rax, .rdx, .r8] := by decide
  obtain ⟨t, hwalk, hquarters, htwiddles, hsame⟩ :=
    h.strides u m direction head (baseCase8.drop 2) hten
  let moved := (t.set .r11 (t.general .rdx)).set .rsi (t.general .r8)
  have hstop : moved.value? (.indexed .rdx .rax .one 0) =
      some (.pointer .output (BitVec.ofNat 64 (8 * node.offset + 2 * node.size))) := by
    refine (State.value?_indexed_ofNat hquarters.stride 0).trans ?_
    rw [hquarters.start, Value.advance_pointer, Scale.factor, Nat.mul_one, Nat.add_zero]
  exact ⟨moved.set .rdi _, hwalk.trans (((walk_move.trans walk_move).trans
    (walk_loadAddress hstop)).trans rfl), ⟨⟨hquarters.start, hquarters.stride, hquarters.thrice⟩,
      htwiddles, moved.set_same _ _⟩, hsame.output, hsame.accesses⟩

/-! ## Leaves of four elements or more -/

section Inside

variable {leaf level : Nat} {node : Node} {s : State V}

/-- The smaller base case. -/
theorem CallSite.inside4 (u : VectorUnit V) (direction : Direction)
    (hsite : CallSite leaf 0 node) (hleaf : leaf % 4 = 0) (h : s.Called node 0)
    (hs : s.Confined m (Access.Allowed leaf 0 node) 0) :
    ∃ t, run u m direction 0 [] baseCase4 s = .ok t ∧
      t.Confined m (Access.Allowed leaf 0 node) 9 := by
  have hsize := hsite.size_mod hleaf
  have hpos := hsite.size_pos
  have hoffset := hsite.offset
  have hwidth : 16 ≤ 8 * levelStart leaf 1 := by
    have := hsite.positive
    show 16 ≤ 8 * (0 + 2 * leaf * 1 / 4)
    omega
  have hsi : Gpr.rsi ∉ [Gpr.rax, .rdx, .r8] := by decide
  obtain ⟨v, hwalk, hquarters, htwiddles, hsame⟩ :=
    h.strides u m direction [] (vectorLines baseCase4 ++ [.plain .ret]) hsi
  have htwiddle : ∀ a ∈ [Address.offset .r8 0], ∃ access, v.access? false a = some access ∧
      access.Allowed leaf 0 node := fun a ha => by
    cases List.mem_singleton.1 ha
    exact ⟨_, State.access?_offset htwiddles false 0,
      allowed_twiddles hsite.levelStart_small rfl (Nat.le_refl 0) hwidth⟩
  obtain ⟨t, hstep, -, ht⟩ := (hs.of_sameMemory hsame).walk u direction [] [.plain .ret]
    (isVector_vectorLines baseCase4)
    (hsite.step_allowed hquarters hleaf (by omega) (Nat.le_refl _) (by omega) htwiddle)
  exact ⟨t, run_of_returned 0 (hwalk.trans hstep), ht⟩

/-- One radix-4 step of the other base case. -/
theorem CallSite.round (u : VectorUnit V) (direction : Direction)
    (hsite : CallSite leaf (level + 1) node) (hleaf : leaf % 4 = 0) {k : Nat}
    (hk : k < node.size / 8) (h : s.Round node (8 * levelStart leaf (level + 1)) k)
    (hs : s.Confined m (Access.Allowed leaf (level + 1) node) (10 * k)) :
    ∃ t, walk u m direction loop8 loop8 s =
        some (if k + 1 < node.size / 8 then .again loop8 t else .returned t) ∧
      t.Round node (8 * levelStart leaf (level + 1)) (k + 1) ∧
      t.Confined m (Access.Allowed leaf (level + 1) node) (10 * (k + 1)) := by
  have hsize := hsite.size_mod hleaf
  have hsmall := hsite.small
  have hoffset := hsite.offset
  have hstart := hsite.levelStart_mod hleaf
  have hwidth := hsite.levelStart_succ
  have htwiddle : ∀ a ∈ [Address.offset .rsi 0, .offset .rsi 16], ∃ access,
      s.access? false a = some access ∧ access.Allowed leaf (level + 1) node := fun a ha => by
    simp only [List.mem_cons, List.not_mem_nil, or_false] at ha
    rcases ha with rfl | rfl
    · exact ⟨_, State.access?_offset h.twiddles false 0,
        allowed_twiddles hsite.levelStart_small (by omega) (by omega) (by omega)⟩
    · exact ⟨_, State.access?_offset h.twiddles false 16,
        allowed_twiddles hsite.levelStart_small (by omega) (by omega) (by omega)⟩
  obtain ⟨t, hstep, hgeneral, ht⟩ := hs.walk u direction loop8 _ (isVector_vectorLines baseCase8)
    (hsite.step_allowed h.quarters hleaf (by omega) (by omega) (by omega) htwiddle)
  obtain ⟨v, hend, hround, hsame⟩ := (h.of_general hgeneral).next u m direction
    hsize hsmall hk loop8
  exact ⟨v, hstep.trans hend, hround, ht.of_sameMemory hsame⟩

/-- The other base case takes a step for every two elements of a quarter. -/
theorem CallSite.inside8 (u : VectorUnit V) (direction : Direction)
    (hsite : CallSite leaf (level + 1) node) (hleaf : leaf % 4 = 0)
    (h : s.Called node (8 * levelStart leaf (level + 1)))
    (hs : s.Confined m (Access.Allowed leaf (level + 1) node) 0) :
    ∃ turns t, run u m direction turns [] baseCase8 s = .ok t ∧
      t.Confined m (Access.Allowed leaf (level + 1) node) (10 * (node.size / 8)) := by
  have hsize := hsite.size_mod hleaf
  have hpos := hsite.size_pos
  obtain ⟨v, hwalk, hround, hsame⟩ := h.enter u m direction []
  obtain ⟨t, hrun, -, ht⟩ := run_counted (fun k s => s.Round node _ k ∧ s.Confined m _ (10 * k))
    (fun k s hk hinv => hsite.round u direction hleaf hk hinv.1 hinv.2)
    (show 0 < node.size / 8 by omega) ⟨hround, hs.of_sameMemory hsame⟩
  exact ⟨_, t, (run_congr hwalk _).trans hrun, ht⟩

end Inside

/-! ## Leaves of two elements -/

/-- Twiddles are loaded as whole vectors. -/
def Memory.AlignedTwiddles (m : Memory V) : Prop :=
  ∀ offset, offset.toNat % 16 ≠ 0 → m.twiddles offset = none

/-- A load from the middle of a vector faults. -/
theorem not_admits_of_misaligned (hm : m.AlignedTwiddles) {s : State V} {segment : Segment}
    (hsegment : segment = .output ∨ segment = .twiddles) {place : Nat} (hsmall : place < 2 ^ 64)
    (h : place % 16 ≠ 0) : ¬ s.Admits m ⟨false, segment, BitVec.ofNat 64 place⟩ := by
  have hplace : (BitVec.ofNat 64 place).toNat % 16 ≠ 0 := by
    rw [BitVec.toNat_ofNat, Nat.mod_eq_of_lt hsmall]
    exact h
  rcases hsegment with rfl | rfl
  · simp [State.Admits, State.fetch?, vectorAt, hplace, -BitVec.toNat_ofNat]
  · simp [State.Admits, State.fetch?, hm _ hplace]

/-- With leaves of two elements, every level but the first starts in the middle of a vector. -/
theorem levelStart_mod_of_two (level : Nat) : 8 * levelStart 2 (level + 1) % 16 = 8 := by
  have := levelStart_succ_mod_two (show 2 % 2 = 0 from rfl) level
  omega

section Faults

variable {level : Nat} {node : Node} {s : State V}

/-- The second quarter of a node of four elements starts in the middle of a vector. -/
theorem CallSite.faults4 (hsite : CallSite 2 0 node) (hm : m.AlignedTwiddles)
    (h : s.Called node 0) (turns : Nat) :
    run u m direction turns [] baseCase4 s = .error .fault := by
  have hsi : Gpr.rsi ∉ [Gpr.rax, .rdx, .r8] := by decide
  obtain ⟨v, hwalk, hquarters, -, -⟩ :=
    h.strides u m direction [] (vectorLines baseCase4 ++ [.plain .ret]) hsi
  have hsize : node.size = 4 := hsite.size
  have hsmall := hsite.small
  have hoffset := hsite.offset
  have hoperand : (false, Address.indexed .rdx .rax .one 0) ∈ operands (vectorLines baseCase4) := by
    rw [operands_baseCase4]
    exact List.mem_cons_of_mem _ List.mem_cons_self
  have hfault := walk_vectors_fault (m := m) u direction [] [.plain .ret]
    (isVector_vectorLines baseCase4) hoperand (s := v) fun access haccess => by
      rw [show v.access? false (.indexed .rdx .rax .one 0) = _ from
        State.access?_indexed hquarters.start hquarters.stride false 0] at haccess
      cases haccess
      rw [Scale.factor]
      exact not_admits_of_misaligned hm (.inl rfl) (by omega) (by omega)
  exact run_of_none turns (hwalk.trans hfault)

/-- The twiddles of a larger node start in the middle of a vector. -/
theorem CallSite.faults8 (hsite : CallSite 2 (level + 1) node) (hm : m.AlignedTwiddles)
    (h : s.Called node (8 * levelStart 2 (level + 1))) (turns : Nat) :
    run u m direction turns [] baseCase8 s = .error .fault := by
  obtain ⟨v, hwalk, hround, -⟩ := h.enter u m direction []
  have hstart := levelStart_mod_of_two level
  have hsmall := hsite.levelStart_small
  have hlevel : levelStart 2 (level + 1) ≤ levelStart 2 (level + 1 + 1) := Nat.le_add_right _ _
  have hoperand : (false, Address.offset .rsi 0) ∈ operands (vectorLines baseCase8) := by
    rw [operands_baseCase8]
    simp [stepOperands]
  have hfault := walk_vectors_fault (m := m) u direction loop8 loopEnd8
    (isVector_vectorLines baseCase8) hoperand (s := v) fun access haccess => by
      rw [show v.access? false (.offset .rsi 0) = _ from
        State.access?_offset hround.twiddles false 0] at haccess
      cases haccess
      exact not_admits_of_misaligned hm (.inr rfl) (by omega) (by omega)
  exact run_of_none turns (hwalk.trans hfault)

end Faults

/-! ## All calls -/

/-- The calls of a transform with reference parameters, with the registers that the chain sets. With
leaves of four elements or more, a base case that can touch the vectors of its node and load the
twiddles of its level returns, and it touches nothing else. With leaves of two elements it faults. -/
theorem base_cases_stay_inside {size leaf : Nat} {params : Parameters} {node : Node}
    (hparams : Parameters.make size leaf = .ok params)
    (hnode : node ∈ Decomposition.postOrder leaf size 0) :
    ∃ level, node.size = 2 * leaf * 2 ^ level ∧
      params.displacement node.size = .ok (some (8 * levelStart leaf level)) ∧
      ∀ {V : Type u} (u : VectorUnit V) (m : Memory V) (direction : Direction) (s : State V),
        s.Called node (8 * levelStart leaf level) →
        (4 ≤ leaf → (∀ a, a.Allowed leaf level node → s.Admits m a) →
          ∃ turns t, run u m direction turns [] (calledCode leaf node) s = .ok t ∧
            (∀ a ∈ t.accesses, a.Allowed leaf level node) ∧
            t.accesses.length = if node.size = 2 * leaf then 9 else 10 * (node.size / 8)) ∧
        (leaf = 2 → m.AlignedTwiddles →
          ∀ turns, run u m direction turns [] (calledCode leaf node) s = .error .fault) := by
  obtain ⟨level, hsite, hdisplacement⟩ := CallSite.of_mem_postOrder hparams hnode
  refine ⟨level, hsite.size, hdisplacement, fun u m direction s hcalled => ?_⟩
  unfold calledCode
  cases level with
  | zero =>
    have hsmallest : node.size = 2 * leaf := hsite.size.trans (Nat.mul_one _)
    rw [if_pos hsmallest, if_pos hsmallest]
    refine ⟨fun hleaf hadmits => ?_, fun hleaf hm turns => ?_⟩
    · have hfour := hsite.two_or_more.resolve_left (by omega)
      obtain ⟨t, hrun, ht⟩ :=
        hsite.inside4 u direction hfour hcalled (hcalled.confined hadmits)
      exact ⟨0, t, hrun, ht.made, ht.length⟩
    · subst hleaf
      exact hsite.faults4 hm hcalled turns
  | succ level =>
    rw [if_neg hsite.size_ne, if_neg hsite.size_ne]
    refine ⟨fun hleaf hadmits => ?_, fun hleaf hm turns => ?_⟩
    · have hfour := hsite.two_or_more.resolve_left (by omega)
      obtain ⟨turns, t, hrun, ht⟩ :=
        hsite.inside8 u direction hfour hcalled (hcalled.confined hadmits)
      exact ⟨turns, t, hrun, ht.made, ht.length⟩
    · subst hleaf
      exact hsite.faults8 hm hcalled turns

/-- The registers of a call. -/
def calledRegisters (node : Node) (lut : Nat) : Gpr → Value
  | .rcx => .number (BitVec.ofNat 64 node.size)
  | .rdx => .pointer .output (BitVec.ofNat 64 (8 * node.offset))
  | .r8 => .pointer .twiddles (BitVec.ofNat 64 lut)
  | _ => .number 0

theorem admits_blank {general : Gpr → Value} {leaf level : Nat} {node : Node} {a : Access}
    (h : a.Allowed leaf level node) : (State.blank general).Admits .blank a := by
  obtain ⟨haligned, ⟨hsegment, -⟩ | ⟨hsegment, hload, -⟩⟩ := h
  · simp [State.Admits, State.fetch?, State.blank, vectorAt, hsegment, haligned]
  · simp [State.Admits, State.fetch?, Memory.blank, vectorAt, hsegment, hload, haligned]

/-- The last quarter of 256 elements with leaves of four. -/
theorem base_cases_stay_inside_of_256 :
    ∃ params, Parameters.make 256 4 = .ok params ∧
      ⟨64, 192⟩ ∈ Decomposition.postOrder 4 256 0 ∧ params.displacement 64 = .ok (some 304) ∧
      (State.blank (calledRegisters ⟨64, 192⟩ 304)).Called ⟨64, 192⟩ 304 ∧
      ∃ turns t, run .blank .blank .inverse turns [] (calledCode 4 ⟨64, 192⟩)
          (.blank (calledRegisters ⟨64, 192⟩ 304)) = .ok t ∧
        (∀ a ∈ t.accesses, a.Allowed 4 3 ⟨64, 192⟩) ∧ t.accesses.length = 80 := by
  have hparams : Parameters.make 256 4 = .ok ⟨256, 4, .ofLeaves 64, Transform.referenceTable 4 6⟩ :=
    eq_ok_of_toOption (by decide +kernel)
  have hnode : ⟨64, 192⟩ ∈ Decomposition.postOrder 4 256 0 := by
    simp [Decomposition.postOrder]
  have hcalled : (State.blank (calledRegisters ⟨64, 192⟩ 304)).Called ⟨64, 192⟩ 304 :=
    ⟨rfl, rfl, rfl, rfl⟩
  obtain ⟨level, hsize, hdisplacement, h⟩ := base_cases_stay_inside hparams hnode
  have hlevel : 2 ^ level = 2 ^ 3 := by
    dsimp only at hsize
    omega
  cases (Nat.pow_right_inj (by decide)).1 hlevel
  obtain ⟨turns, t, hrun, hinside, hlength⟩ :=
    (h .blank .blank .inverse _ hcalled).1 (by decide) fun _ => admits_blank
  exact ⟨_, hparams, hnode, hdisplacement, hcalled, turns, t, hrun, hinside, hlength⟩

/-- The one call of eight elements with leaves of two faults. -/
theorem call_of_two_element_leaves_faults :
    ∃ params, Parameters.make 8 2 = .ok params ∧ ⟨8, 0⟩ ∈ Decomposition.postOrder 2 8 0 ∧
      params.displacement 8 = .ok (some 8) ∧
      ∀ turns, run .blank .blank .forward turns [] (calledCode 2 ⟨8, 0⟩)
        (.blank (calledRegisters ⟨8, 0⟩ 8)) = .error .fault :=
  ⟨⟨8, 2, ⟨1, 0⟩, [0, 1]⟩, eq_ok_of_toOption (by decide +kernel), by simp [Decomposition.postOrder],
    eq_ok_of_toOption (by decide +kernel), fun turns => run_of_none turns rfl⟩

end SplitRadix.Machine

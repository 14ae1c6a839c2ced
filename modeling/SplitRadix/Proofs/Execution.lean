import SplitRadix.Machine.Kernels

/-!
# Running kernels

What the lines of a kernel do to registers and memory. Memory is in segments, and an address is a
segment with a distance in bytes, so nothing depends on where the segments are. Only the output is
written. The vector register that holds the rotation mask is for exclusive or alone, so vectors can
be of any kind that has the few operations the kernels need.

A run faults where the processor would (a vector that does not start at a multiple of 16 bytes, an
address outside its segment) and where this account of the processor ends: at instructions that no
kernel has and at flags that no comparison has set. A run of a loop is counted by its jumps back.

* `exec`: one instruction.
* `walk`: the lines up to the next jump back; `run`: all of them.
* `run_counted`, `run_add`: loops, turn by turn; more turns than needed do no harm.
* `Reaches`: pieces of code run one after the other.
* `walk_vectors`: a stretch of vector instructions changes vectors only, and makes the accesses its
  operands name.
-/

namespace SplitRadix.Machine

universe u

/-! ## Addresses and vectors -/

/-- The parts of memory that kernels use. -/
inductive Segment where
  | input
  | output
  | twiddles
  | positions    -- the input index table
  deriving DecidableEq, Repr

/-- What a general register holds. -/
inductive Value where
  | number (n : BitVec 64)
  | pointer (segment : Segment) (offset : BitVec 64)
  deriving DecidableEq, Repr

namespace Value

/-- The value `n` further on. -/
def advance (n : BitVec 64) : Value → Value
  | number m => number (m + n)
  | pointer segment offset => pointer segment (offset + n)

def number? : Value → Option (BitVec 64)
  | number n => some n
  | pointer _ _ => none

/-- Whether one value is below another. Addresses in different segments are not compared. -/
def below? : Value → Value → Option Bool
  | number m, number n => some (m < n)
  | pointer g m, pointer h n => if g = h then some (m < n) else none
  | _, _ => none

@[simp] theorem advance_number (m n : Nat) :
    (number (BitVec.ofNat 64 m)).advance (BitVec.ofNat 64 n) =
      number (BitVec.ofNat 64 (m + n)) := by
  rw [advance, BitVec.ofNat_add]

@[simp] theorem advance_pointer (segment : Segment) (m n : Nat) :
    (pointer segment (BitVec.ofNat 64 m)).advance (BitVec.ofNat 64 n) =
      pointer segment (BitVec.ofNat 64 (m + n)) := by
  rw [advance, BitVec.ofNat_add]

theorem ofNat_lt_ofNat {m n : Nat} (hm : m < 2 ^ 64) (hn : n < 2 ^ 64) :
    BitVec.ofNat 64 m < BitVec.ofNat 64 n ↔ m < n := by
  rw [BitVec.lt_def, BitVec.toNat_ofNat, BitVec.toNat_ofNat, Nat.mod_eq_of_lt hm,
    Nat.mod_eq_of_lt hn]

theorem below?_number {m n : Nat} (hm : m < 2 ^ 64) (hn : n < 2 ^ 64) :
    (number (BitVec.ofNat 64 m)).below? (number (BitVec.ofNat 64 n)) = some (decide (m < n)) := by
  simp only [below?, ofNat_lt_ofNat hm hn]

theorem below?_pointer (segment : Segment) {m n : Nat} (hm : m < 2 ^ 64) (hn : n < 2 ^ 64) :
    (pointer segment (BitVec.ofNat 64 m)).below? (pointer segment (BitVec.ofNat 64 n)) =
      some (decide (m < n)) := by
  simp only [below?, ofNat_lt_ofNat hm hn, if_true]

end Value

/-- An array of vectors. -/
abbrev Vectors (V : Type u) := Nat → Option V

/-- The vector that starts at a byte of an array: every sixteenth byte starts one. -/
def vectorAt {V : Type u} (array : Vectors V) (offset : BitVec 64) : Option V :=
  if offset.toNat % 16 = 0 then array (offset.toNat / 16) else none

/-- The operations of the processor on vectors. -/
structure VectorUnit (V : Type u) where
  add : V → V → V
  sub : V → V → V
  mul : V → V → V
  mirror : V → V                     -- exclusive or with the rotation mask
  shuffle : UInt8 → V → V → V        -- the control selects the lanes

/-- A packed operation on two vectors. An exclusive or is one only with the rotation mask. -/
def VectorUnit.combine? {V : Type u} (u : VectorUnit V) : Packed → Option (V → V → V)
  | .add => some u.add
  | .sub => some u.sub
  | .mul => some u.mul
  | .xor => none

/-- The memory that is only read, by byte. -/
structure Memory (V : Type u) where
  input : BitVec 64 → Option V
  twiddles : BitVec 64 → Option V
  positions : BitVec 64 → Option (BitVec 32)

/-- A vector read from memory or written to it. -/
structure Access where
  store : Bool
  segment : Segment
  offset : BitVec 64
  deriving DecidableEq, Repr

/-- The register that holds the rotation mask. -/
def maskRegister : Xmm := xmm 15

structure State (V : Type u) where
  general : Gpr → Value
  vector : Xmm → V
  output : Vectors V
  below : Option Bool := none       -- the outcome of the last comparison
  accesses : List Access := []      -- latest first

variable {V : Type u}

namespace State

variable (s : State V)

/-- Set a general register. -/
def set (dst : Gpr) (value : Value) : State V :=
  { s with general := fun r => if r = dst then value else s.general r }

@[simp] theorem set_same (dst : Gpr) (value : Value) : (s.set dst value).general dst = value :=
  if_pos rfl

theorem set_other {dst r : Gpr} (h : r ≠ dst) (value : Value) :
    (s.set dst value).general r = s.general r :=
  if_neg h

/-- What a vector register holds, if it is a vector. -/
def vector? (r : Xmm) : Option V := if r = maskRegister then none else some (s.vector r)

/-- Set a vector register. -/
def setVector (dst : Xmm) (v : V) : Option (State V) :=
  if dst = maskRegister then none
  else some { s with vector := fun r => if r = dst then v else s.vector r }

/-- Combine two vector registers into the first of them. -/
def combine (f : V → V → V) (dst src : Xmm) : Option (State V) :=
  (s.vector? dst).bind fun v => (s.vector? src).bind fun w => s.setVector dst (f v w)

/-- What the base of a memory operand stands for. -/
def base : Option Gpr → Value
  | none => .number 0
  | some r => s.general r

/-- What the index of a memory operand adds. An index is a number. -/
def index? : Option (Gpr × Scale) → Option (BitVec 64)
  | none => some 0
  | some (r, scale) => (s.general r).number?.map (· * BitVec.ofNat 64 scale.factor)

/-- The value of a memory operand. -/
def value? (a : Address) : Option Value :=
  (s.index? a.index).map fun index => (s.base a.base).advance (index + BitVec.ofInt 64 a.disp)

/-- The access that a memory operand asks for. -/
def access? (store : Bool) (a : Address) : Option Access :=
  match s.value? a with
  | some (.pointer segment offset) => some ⟨store, segment, offset⟩
  | _ => none

/-- The vector at an address. -/
def fetch? (m : Memory V) : Segment → BitVec 64 → Option V
  | .input, offset => m.input offset
  | .twiddles, offset => m.twiddles offset
  | .output, offset => vectorAt s.output offset
  | .positions, _ => none

/-- Note an access. -/
def noting (access : Access) : State V := { s with accesses := access :: s.accesses }

/-- Put a vector into the output, over the one that is there. -/
def put (offset : BitVec 64) (v : V) : State V :=
  { s with output := fun i => if i = offset.toNat / 16 then some v else s.output i }

end State

/-- Vectors without contents, for runs of which only the addresses matter. -/
def VectorUnit.blank : VectorUnit Unit :=
  ⟨fun _ _ => (), fun _ _ => (), fun _ _ => (), fun _ => (), fun _ _ _ => ()⟩

/-- Memory without contents. -/
def Memory.blank : Memory Unit :=
  ⟨fun _ => some (), vectorAt fun _ => some (), fun _ => some 0⟩

/-- A state with nothing but its general registers. -/
def State.blank (general : Gpr → Value) : State Unit :=
  { general, vector := fun _ => (), output := fun _ => some () }

/-! ## Instructions -/

/-- One instruction. -/
def exec (u : VectorUnit V) (m : Memory V) (i : Instruction) (s : State V) : Option (State V) :=
  match i with
  | .loadImmediate dst value => some (s.set dst (.number (value.toBitVec.setWidth 64)))
  | .addImmediate .qword dst value =>
    some { s.set dst ((s.general dst).advance (BitVec.ofInt 64 value)) with below := none }
  | .move dst src => some (s.set dst (s.general src))
  | .load .dword dst src =>
    match s.value? src with
    | some (.pointer .positions offset) =>
      (m.positions offset).map fun n => s.set dst (.number (n.setWidth 64))
    | _ => none
  | .loadAddress dst src => (s.value? src).map (s.set dst)
  | .compare first second =>
    ((s.general first).below? (s.general second)).map fun below => { s with below := some below }
  | .xorLow dst src =>
    if dst = src then some { s.set dst (.number 0) with below := none } else none
  | .moveVector dst src => (s.vector? src).bind (s.setVector dst)
  | .loadVector dst src =>
    (s.access? false src).bind fun access =>
      (s.fetch? m access.segment access.offset).bind ((s.noting access).setVector dst)
  | .storeVector dst src =>
    (s.access? true dst).bind fun access => (s.vector? src).bind fun v =>
      if access.segment = .output ∧ (vectorAt s.output access.offset).isSome then
        some ((s.noting access).put access.offset v)
      else none
  | .packed .xor dst src =>
    if src = maskRegister then (s.vector? dst).bind fun v => s.setVector dst (u.mirror v) else none
  | .packed op dst src => (u.combine? op).bind fun f => s.combine f dst src
  | .shuffle dst src control => s.combine (u.shuffle control) dst src
  | _ => none

/-- The operation that stands at a place where the directions differ. -/
def Packed.turned (op : Packed) : Direction → Packed
  | .forward => op
  | .inverse => op.flip

/-- One line that is no end of a loop. A displacement that is not filled in is no address. -/
def execLine (u : VectorUnit V) (m : Memory V) (direction : Direction) (line : Line)
    (s : State V) : Option (State V) :=
  match line with
  | .plain i => exec u m i s
  | .flipped op dst src => exec u m (.packed (op.turned direction) dst src) s
  | .patched _ _ | .loopHead | .loopBack => none

/-- Fill in displacements, which the processor takes as signed. -/
def fill : List UInt32 → List Line → List Line
  | value :: values, .patched dst base :: rest =>
    .plain (.loadVector dst (.offset base value.toBitVec.toInt)) :: fill values rest
  | values, line :: rest => line :: fill values rest
  | _, [] => []

/-! ## Runs -/

/-- Where a walk without jumps ends. -/
inductive Leg (V : Type u) where
  | returned (s : State V)
  | again (head : List Line) (s : State V)    -- before a jump back to `head`

/-- Walk through lines up to a jump back or the end. The code of the loop is `head`. -/
def walk (u : VectorUnit V) (m : Memory V) (direction : Direction) (head : List Line) :
    List Line → State V → Option (Leg V)
  | [], s => some (.returned s)
  | .loopHead :: rest, s => walk u m direction rest rest s
  | .loopBack :: rest, s =>
    match s.below with
    | some true => some (.again head s)
    | some false => walk u m direction head rest s
    | none => none
  | .plain .ret :: _, s => some (.returned s)
  | line :: rest, s => (execLine u m direction line s).bind (walk u m direction head rest)

/-- Why a run did not return. -/
inductive Stop where
  | fault
  | unfinished    -- more jumps back than were allowed
  deriving DecidableEq, Repr

/-- Run code with at most `turns` jumps back. -/
def run (u : VectorUnit V) (m : Memory V) (direction : Direction) (turns : Nat)
    (head code : List Line) (s : State V) : Except Stop (State V) :=
  match walk u m direction head code s with
  | none => .error .fault
  | some (.returned t) => .ok t
  | some (.again head t) =>
    match turns with
    | 0 => .error .unfinished
    | turns + 1 => run u m direction turns head head t

/-- Run pieces of code one after the other, each with at most `turns` jumps back. -/
def runAll (u : VectorUnit V) (m : Memory V) (direction : Direction) (turns : Nat) :
    List (List Line) → State V → Except Stop (State V)
  | [], s => .ok s
  | code :: rest, s => (run u m direction turns [] code s).bind (runAll u m direction turns rest)

/-- With enough turns, pieces of code get from `s` to `t`. -/
def Reaches (u : VectorUnit V) (m : Memory V) (direction : Direction) (pieces : List (List Line))
    (s t : State V) : Prop :=
  ∃ enough, ∀ turns, enough ≤ turns → runAll u m direction turns pieces s = .ok t

section Runs

variable {u : VectorUnit V} {m : Memory V} {direction : Direction} {head code rest : List Line}
variable {s t : State V}

/-- Lines after which the next line follows. -/
def Line.isStraight : Line → Bool
  | .plain .ret | .loopHead | .loopBack => false
  | _ => true

theorem walk_line {line : Line} (h : line.isStraight = true) :
    walk u m direction head (line :: rest) s =
      (execLine u m direction line s).bind (walk u m direction head rest) := by
  cases line with
  | plain i =>
    cases i with
    | ret => cases h
    | _ => rfl
  | patched dst base => rfl
  | flipped op dst src => rfl
  | loopHead => cases h
  | loopBack => cases h

theorem walk_of_exec {line : Line} (h : line.isStraight = true)
    (hexec : execLine u m direction line s = some t) :
    walk u m direction head (line :: rest) s = walk u m direction head rest t := by
  rw [walk_line h, hexec]
  rfl

theorem run_of_returned (turns : Nat) (h : walk u m direction head code s = some (.returned t)) :
    run u m direction turns head code s = .ok t := by
  unfold run
  rw [h]

theorem run_of_again (turns : Nat) {next : List Line}
    (h : walk u m direction head code s = some (.again next t)) :
    run u m direction (turns + 1) head code s = run u m direction turns next next t := by
  rw [run, h]

theorem run_of_none (turns : Nat) (h : walk u m direction head code s = none) :
    run u m direction turns head code s = .error .fault := by
  unfold run
  rw [h]

/-- A run that returns does not need the turns that are left. -/
theorem run_add {turns : Nat} (h : run u m direction turns head code s = .ok t) (more : Nat) :
    run u m direction (turns + more) head code s = .ok t := by
  induction turns generalizing head code s with
  | zero =>
    rw [run] at h
    cases hw : walk u m direction head code s with
    | none => rw [hw] at h; cases h
    | some leg =>
      rw [hw] at h
      cases leg with
      | returned t =>
        cases h
        exact run_of_returned _ hw
      | again next t => cases h
  | succ turns ih =>
    rw [run] at h
    cases hw : walk u m direction head code s with
    | none => rw [hw] at h; cases h
    | some leg =>
      rw [hw] at h
      cases leg with
      | returned t =>
        cases h
        exact run_of_returned _ hw
      | again next t =>
        rw [Nat.succ_add, run_of_again _ hw]
        exact ih h

theorem run_congr {head' code' : List Line}
    (h : walk u m direction head code s = walk u m direction head' code' t) (turns : Nat) :
    run u m direction turns head code s = run u m direction turns head' code' t := by
  unfold run
  rw [h]

theorem Reaches.of_run {turns : Nat} (h : run u m direction turns [] code s = .ok t) :
    Reaches u m direction [code] s t := by
  refine ⟨turns, fun more hmore => ?_⟩
  obtain ⟨k, rfl⟩ := Nat.exists_eq_add_of_le hmore
  rw [runAll, run_add h k]
  rfl

theorem Reaches.append {first second : List (List Line)} {v : State V}
    (h : Reaches u m direction first s t) (h' : Reaches u m direction second t v) :
    Reaches u m direction (first ++ second) s v := by
  obtain ⟨enough, h⟩ := h
  obtain ⟨enough', h'⟩ := h'
  refine ⟨max enough enough', fun turns hturns => ?_⟩
  have hfirst := h turns (by omega)
  clear h
  induction first generalizing s with
  | nil =>
    cases hfirst
    exact h' turns (by omega)
  | cons code rest ih =>
    rw [runAll] at hfirst
    cases hrun : run u m direction turns [] code s with
    | error stop => rw [hrun] at hfirst; cases hfirst
    | ok w =>
      rw [hrun] at hfirst
      rw [List.cons_append, runAll, hrun]
      exact ih hfirst

/-- A loop that counts up to `stop`. -/
theorem run_counted (inv : Nat → State V → Prop) {stop : Nat}
    (hturn : ∀ k s, k < stop → inv k s → ∃ t, walk u m direction head head s =
      some (if k + 1 < stop then .again head t else .returned t) ∧ inv (k + 1) t)
    {k : Nat} (hk : k < stop) (h : inv k s) :
    ∃ t, run u m direction (stop - k - 1) head head s = .ok t ∧ inv stop t := by
  obtain ⟨left, rfl⟩ : ∃ left, stop = k + 1 + left := ⟨stop - k - 1, by omega⟩
  rw [show k + 1 + left - k - 1 = left by omega]
  induction left generalizing k s with
  | zero =>
    obtain ⟨t, hwalk, hinv⟩ := hturn k s hk h
    rw [if_neg (by omega)] at hwalk
    exact ⟨t, run_of_returned 0 hwalk, hinv⟩
  | succ left ih =>
    obtain ⟨t, hwalk, hinv⟩ := hturn k s hk h
    rw [if_pos (by omega)] at hwalk
    rw [run_of_again left hwalk, show k + 1 + (left + 1) = k + 1 + 1 + left by omega]
    rw [show k + 1 + (left + 1) = k + 1 + 1 + left by omega] at hturn
    exact ih hinv hturn (by omega)

end Runs

/-! ## General instructions -/

section General

variable {u : VectorUnit V} {m : Memory V} {direction : Direction} {head rest : List Line}
variable {s : State V} {dst src index : Gpr} {a : Address} {scale : Scale} {disp : Int}

theorem State.value?_offset : s.value? (.offset src disp) =
    some ((s.general src).advance (BitVec.ofInt 64 disp)) := by
  simp [State.value?, State.index?, State.base, Address.offset]

theorem State.value?_offset_ofNat (disp : Nat) : s.value? (.offset src disp) =
    some ((s.general src).advance (BitVec.ofNat 64 disp)) := by
  rw [value?_offset, BitVec.ofInt_natCast]

theorem State.value?_indexed {n : BitVec 64} (h : s.general index = .number n) :
    s.value? (.indexed src index scale disp) = some ((s.general src).advance
      (n * BitVec.ofNat 64 scale.factor + BitVec.ofInt 64 disp)) := by
  simp [State.value?, State.index?, State.base, Address.indexed, h, Value.number?]

theorem State.value?_indexed_ofNat {n : Nat} (h : s.general index = .number (BitVec.ofNat 64 n))
    (disp : Nat) : s.value? (.indexed src index scale disp) =
      some ((s.general src).advance (BitVec.ofNat 64 (n * scale.factor + disp))) := by
  rw [value?_indexed h, BitVec.ofInt_natCast, ← BitVec.ofNat_mul, ← BitVec.ofNat_add]

theorem State.value?_scaled {n : BitVec 64} (h : s.general index = .number n) :
    s.value? (.scaled index scale) = some (.number (n * BitVec.ofNat 64 scale.factor)) := by
  simp [State.value?, State.index?, State.base, Address.scaled, h, Value.number?, Value.advance]

/-- The access of an operand relative to a pointer. -/
theorem State.access?_offset {segment : Segment} {place : Nat}
    (h : s.general src = .pointer segment (BitVec.ofNat 64 place)) (store : Bool) (disp : Nat) :
    s.access? store (.offset src disp) = some ⟨store, segment, BitVec.ofNat 64 (place + disp)⟩ := by
  rw [access?, value?_offset_ofNat, h, Value.advance_pointer]

theorem State.access?_indexed {segment : Segment} {place n : Nat}
    (h : s.general src = .pointer segment (BitVec.ofNat 64 place))
    (hindex : s.general index = .number (BitVec.ofNat 64 n)) (store : Bool) (disp : Nat) :
    s.access? store (.indexed src index scale disp) =
      some ⟨store, segment, BitVec.ofNat 64 (place + (n * scale.factor + disp))⟩ := by
  rw [access?, value?_indexed_ofNat hindex, h, Value.advance_pointer]

theorem walk_load {offset : BitVec 64} {n : BitVec 32}
    (h : s.value? a = some (.pointer .positions offset)) (hn : m.positions offset = some n) :
    walk u m direction head (.plain (.load .dword dst a) :: rest) s =
      walk u m direction head rest (s.set dst (.number (n.setWidth 64))) :=
  walk_of_exec rfl (by simp [execLine, exec, h, hn])

theorem walk_loadAddress {v : Value} (h : s.value? a = some v) :
    walk u m direction head (.plain (.loadAddress dst a) :: rest) s =
      walk u m direction head rest (s.set dst v) :=
  walk_of_exec rfl (by simp [execLine, exec, h])

theorem walk_move : walk u m direction head (.plain (.move dst src) :: rest) s =
    walk u m direction head rest (s.set dst (s.general src)) :=
  walk_of_exec rfl rfl

theorem walk_add {n : Int} : walk u m direction head (.plain (.addImmediate .qword dst n) :: rest) s =
    walk u m direction head rest
      { s.set dst ((s.general dst).advance (BitVec.ofInt 64 n)) with below := none } :=
  walk_of_exec rfl rfl

/-- The end of a loop, before code that only returns. -/
theorem walk_loopEnd {first second : Gpr} {p : Prop} [Decidable p]
    (h : (s.general first).below? (s.general second) = some (decide p))
    (hrest : ∀ t, walk u m direction head rest t = some (.returned t)) :
    walk u m direction head (.plain (.compare first second) :: .loopBack :: rest) s =
      some (if p then .again head { s with below := some (decide p) }
        else .returned { s with below := some (decide p) }) := by
  have hexec : execLine u m direction (.plain (.compare first second)) s =
      some { s with below := some (decide p) } := by
    simp [execLine, exec, h]
  rw [walk_of_exec rfl hexec]
  by_cases hp : p
  · simp only [walk, hp, decide_true, if_true]
  · simp only [walk, hp, decide_false, if_false, hrest]

end General

/-! ## Stretches of vector instructions -/

/-- Lines that change no general register and keep the rotation mask. -/
def Line.isVector : Line → Bool
  | .plain (.moveVector dst src) | .plain (.shuffle dst src _) =>
    dst ≠ maskRegister && src ≠ maskRegister
  | .plain (.packed op dst src) =>
    dst ≠ maskRegister && decide (op = .xor) == decide (src = maskRegister)
  | .flipped op dst src =>
    (op = .add || op = .sub) && dst ≠ maskRegister && src ≠ maskRegister
  | .plain (.loadVector reg _) | .plain (.storeVector _ reg) => reg ≠ maskRegister
  | _ => false

theorem Line.isStraight_of_isVector (line : Line) (h : line.isVector = true) :
    line.isStraight = true := by
  cases line with
  | plain i =>
    cases i with
    | ret => cases h
    | _ => rfl
  | patched dst base => rfl
  | flipped op dst src => rfl
  | loopHead => cases h
  | loopBack => cases h

/-- The memory operand of a vector load or store. -/
def Line.operand? : Line → Option (Bool × Address)
  | .plain (.loadVector _ src) => some (false, src)
  | .plain (.storeVector dst _) => some (true, dst)
  | _ => none

/-- The vector loads and stores of code in order, with their operands. -/
def operands (code : List Line) : List (Bool × Address) := code.filterMap Line.operand?

namespace State

/-- An access that does not fault. -/
def Admits (m : Memory V) (s : State V) (access : Access) : Prop :=
  if access.store = true then
    access.segment = .output ∧ (vectorAt s.output access.offset).isSome
  else (s.fetch? m access.segment access.offset).isSome

/-- After a stretch of vector instructions that made some accesses. -/
structure Touched (accesses : List Access) (s t : State V) : Prop where
  general : t.general = s.general
  below : t.below = s.below
  domain : ∀ i, (t.output i).isSome = (s.output i).isSome
  accesses : t.accesses = accesses.reverse ++ s.accesses

variable {m : Memory V} {s t : State V}

theorem Touched.refl (s : State V) : Touched [] s s := ⟨rfl, rfl, fun _ => rfl, rfl⟩

theorem Touched.trans {first second : List Access} {v : State V} (h : Touched first s t)
    (h' : Touched second t v) : Touched (first ++ second) s v where
  general := h'.general.trans h.general
  below := h'.below.trans h.below
  domain i := (h'.domain i).trans (h.domain i)
  accesses := by rw [h'.accesses, h.accesses, List.reverse_append, List.append_assoc]

theorem value?_congr (h : t.general = s.general) (a : Address) : t.value? a = s.value? a := by
  unfold value? index? base
  rw [h]

theorem access?_congr (h : t.general = s.general) (store : Bool) (a : Address) :
    t.access? store a = s.access? store a := by
  unfold access?
  rw [value?_congr h]

theorem store_of_access? {store : Bool} {a : Address} {access : Access}
    (h : s.access? store a = some access) : access.store = store := by
  unfold access? at h
  split at h <;> cases h
  rfl

theorem isSome_vectorAt (h : ∀ i, (t.output i).isSome = (s.output i).isSome)
    (offset : BitVec 64) : (vectorAt t.output offset).isSome = (vectorAt s.output offset).isSome := by
  unfold vectorAt
  split
  · exact h _
  · rfl

/-- What is admitted depends on where the output is. -/
theorem admits_iff (h : ∀ i, (t.output i).isSome = (s.output i).isSome) (access : Access) :
    t.Admits m access ↔ s.Admits m access := by
  have houtput := isSome_vectorAt h access.offset
  unfold Admits
  cases access.segment with
  | output => simp only [fetch?, houtput]
  | input => simp only [fetch?, houtput]
  | twiddles => simp only [fetch?, houtput]
  | positions => simp only [fetch?, houtput]

theorem vector?_eq {r : Xmm} (h : r ≠ maskRegister) : s.vector? r = some (s.vector r) := if_neg h

theorem setVector_touched {dst : Xmm} (h : dst ≠ maskRegister) (v : V) :
    ∃ t, s.setVector dst v = some t ∧ Touched [] s t :=
  ⟨_, if_neg h, rfl, rfl, fun _ => rfl, rfl⟩

theorem combine_touched (f : V → V → V) {dst src : Xmm} (hdst : dst ≠ maskRegister)
    (hsrc : src ≠ maskRegister) : ∃ t, s.combine f dst src = some t ∧ Touched [] s t := by
  obtain ⟨t, ht, htouched⟩ := setVector_touched (s := s) hdst (f (s.vector dst) (s.vector src))
  exact ⟨t, by simp [combine, vector?_eq hdst, vector?_eq hsrc, ht], htouched⟩

end State

section Stretches

variable {u : VectorUnit V} {m : Memory V} {direction : Direction} {s : State V}

theorem packed_touched {op : Packed} {dst src : Xmm} (hop : op ≠ .xor) (hdst : dst ≠ maskRegister)
    (hsrc : src ≠ maskRegister) :
    ∃ t, exec u m (.packed op dst src) s = some t ∧ State.Touched [] s t := by
  obtain ⟨f, hf⟩ : ∃ f, u.combine? op = some f := by
    cases op with
    | xor => exact absurd rfl hop
    | _ => exact ⟨_, rfl⟩
  obtain ⟨t, ht, htouched⟩ := State.combine_touched (s := s) f hdst hsrc
  exact ⟨t, by simp [exec, hf, ht], htouched⟩

/-- A vector instruction makes the access that its operand names, and nothing else is seen of it. -/
theorem execLine_touched (u : VectorUnit V) (direction : Direction) {line : Line}
    (hline : line.isVector = true)
    (h : ∀ store a, line.operand? = some (store, a) →
      ∃ access, s.access? store a = some access ∧ s.Admits m access) :
    ∃ t, execLine u m direction line s = some t ∧
      State.Touched ((line.operand?.bind fun p => s.access? p.1 p.2).toList) s t := by
  cases line with
  | plain i =>
    cases i with
    | moveVector dst src =>
      simp only [Line.isVector, Bool.and_eq_true, decide_eq_true_eq] at hline
      obtain ⟨t, ht, htouched⟩ := State.setVector_touched (s := s) hline.1 (s.vector src)
      exact ⟨t, by simp [execLine, exec, State.vector?_eq hline.2, ht], htouched⟩
    | shuffle dst src control =>
      simp only [Line.isVector, Bool.and_eq_true, decide_eq_true_eq] at hline
      exact State.combine_touched (u.shuffle control) hline.1 hline.2
    | packed op dst src =>
      simp only [Line.isVector, Bool.and_eq_true, decide_eq_true_eq, beq_iff_eq,
        decide_eq_decide] at hline
      by_cases hop : op = .xor
      · obtain ⟨t, ht, htouched⟩ := State.setVector_touched (s := s) hline.1
          (u.mirror (s.vector dst))
        refine ⟨t, ?_, htouched⟩
        simp [execLine, exec, hop, hline.2.1 hop, State.vector?_eq hline.1, ht]
      · exact packed_touched (m := m) hop hline.1 fun hsrc => hop (hline.2.2 hsrc)
    | loadVector dst src =>
      simp only [Line.isVector, decide_eq_true_eq] at hline
      obtain ⟨access, haccess, hadmits⟩ := h false src rfl
      obtain ⟨v, hv⟩ : ∃ v, s.fetch? m access.segment access.offset = some v := by
        rw [State.Admits, State.store_of_access? haccess, if_neg (by decide)] at hadmits
        exact Option.isSome_iff_exists.1 hadmits
      obtain ⟨t, ht, htouched⟩ := State.setVector_touched (s := s.noting access) hline v
      refine ⟨t, ?_, htouched.general, htouched.below, htouched.domain, ?_⟩
      · simp [execLine, exec, haccess, hv, ht]
      · simp [htouched.accesses, Line.operand?, haccess, State.noting]
    | storeVector dst src =>
      simp only [Line.isVector, decide_eq_true_eq] at hline
      obtain ⟨access, haccess, hadmits⟩ := h true dst rfl
      rw [State.Admits, State.store_of_access? haccess, if_pos rfl] at hadmits
      refine ⟨(s.noting access).put access.offset (s.vector src), ?_, rfl, rfl, fun i => ?_, ?_⟩
      · simp [execLine, exec, haccess, State.vector?_eq hline, hadmits]
      · have hthere := hadmits.2
        unfold vectorAt at hthere
        simp only [State.put, State.noting]
        split at hthere
        · split
          · rename_i hi
            rw [hi, hthere]
            rfl
          · rfl
        · cases hthere
      · simp [Line.operand?, haccess, State.noting, State.put]
    | _ => cases hline
  | flipped op dst src =>
    simp only [Line.isVector, Bool.and_eq_true, Bool.or_eq_true, decide_eq_true_eq] at hline
    have hop : op.turned direction ≠ .xor := by
      rcases hline.1.1 with rfl | rfl <;> cases direction <;> decide
    exact packed_touched (m := m) hop hline.1.2 hline.2
  | patched dst base => cases hline
  | loopHead => cases hline
  | loopBack => cases hline

/-- A stretch of vector instructions makes the accesses that its operands name. -/
theorem walk_vectors (u : VectorUnit V) (direction : Direction) (head rest : List Line)
    {code : List Line} (hcode : ∀ line ∈ code, line.isVector = true)
    (h : ∀ p ∈ operands code, ∃ access, s.access? p.1 p.2 = some access ∧ s.Admits m access) :
    ∃ t, walk u m direction head (code ++ rest) s = walk u m direction head rest t ∧
      State.Touched ((operands code).filterMap fun p => s.access? p.1 p.2) s t := by
  induction code generalizing s with
  | nil => exact ⟨s, rfl, .refl s⟩
  | cons line code ih =>
    have hline := hcode line List.mem_cons_self
    have hstraight := line.isStraight_of_isVector hline
    obtain ⟨t, ht, htouched⟩ := execLine_touched u direction hline
      fun store a hoperand => h (store, a) (by simp [operands, hoperand])
    obtain ⟨v, hv, hrest⟩ := ih (s := t) (fun l hl => hcode l (List.mem_cons_of_mem _ hl))
      fun p hp => by
        have hmem : p ∈ operands (line :: code) := by
          simp only [operands, List.filterMap_cons]
          cases line.operand? with
          | none => exact hp
          | some _ => exact List.mem_cons_of_mem _ hp
        obtain ⟨access, haccess, hadmits⟩ := h p hmem
        exact ⟨access, (State.access?_congr htouched.general _ _).trans haccess,
          (State.admits_iff htouched.domain access).2 hadmits⟩
    refine ⟨v, (walk_of_exec hstraight ht).trans hv, ?_⟩
    have hall := htouched.trans hrest
    simp only [State.access?_congr htouched.general] at hall
    have hlist : (line.operand?.bind fun p => s.access? p.1 p.2).toList ++
        (operands code).filterMap (fun p => s.access? p.1 p.2) =
        (operands (line :: code)).filterMap fun p => s.access? p.1 p.2 := by
      simp only [operands, List.filterMap_cons]
      cases line.operand? with
      | none => rfl
      | some p =>
        simp only [Option.bind_some, List.filterMap_cons]
        cases s.access? p.1 p.2 <;> rfl
    rwa [hlist] at hall

/-- A vector instruction whose access is not admitted faults. -/
theorem execLine_fault {line : Line} {p : Bool × Address} (hoperand : line.operand? = some p)
    (hbad : ∀ access, s.access? p.1 p.2 = some access → ¬ s.Admits m access) :
    execLine u m direction line s = none := by
  cases line with
  | plain i =>
    cases i with
    | loadVector dst src =>
      cases hoperand
      cases haccess : s.access? false src with
      | none => simp [execLine, exec, haccess]
      | some access =>
        have hfetch := hbad access haccess
        rw [State.Admits, State.store_of_access? haccess, if_neg (by decide),
          Option.not_isSome_iff_eq_none] at hfetch
        simp [execLine, exec, haccess, hfetch]
    | storeVector dst src =>
      cases hoperand
      cases haccess : s.access? true dst with
      | none => simp [execLine, exec, haccess]
      | some access =>
        have hplace := hbad access haccess
        rw [State.Admits, State.store_of_access? haccess, if_pos rfl] at hplace
        simp only [execLine, exec, haccess, Option.bind_some, if_neg hplace]
        cases s.vector? src <;> rfl
    | _ => cases hoperand
  | _ => cases hoperand

/-- A stretch of vector instructions faults if one of its accesses is not admitted. -/
theorem walk_vectors_fault (u : VectorUnit V) (direction : Direction) (head rest : List Line)
    {code : List Line} (hcode : ∀ line ∈ code, line.isVector = true) {p : Bool × Address}
    (hp : p ∈ operands code)
    (hbad : ∀ access, s.access? p.1 p.2 = some access → ¬ s.Admits m access) :
    walk u m direction head (code ++ rest) s = none := by
  induction code generalizing s with
  | nil => cases hp
  | cons line code ih =>
    have hline := hcode line List.mem_cons_self
    rw [List.cons_append, walk_line (line.isStraight_of_isVector hline)]
    cases hexec : execLine u m direction line s with
    | none => rfl
    | some t =>
      -- the line did not fault, so the access in question is a later one, and not admitted there
      have hgood : ∀ q, line.operand? = some q →
          ∃ access, s.access? q.1 q.2 = some access ∧ s.Admits m access := fun q hq =>
        Classical.byContradiction fun hno => by
          rw [execLine_fault hq fun access ha hadmits => hno ⟨access, ha, hadmits⟩] at hexec
          cases hexec
      obtain ⟨v, hv, htouched⟩ := execLine_touched u direction hline fun store a => hgood (store, a)
      cases hexec.symm.trans hv
      have hlater : p ∈ operands code := by
        rcases List.mem_filterMap.1 hp with ⟨l, hl, hlp⟩
        rcases List.mem_cons.1 hl with rfl | hl
        · obtain ⟨access, haccess, hadmits⟩ := hgood p hlp
          exact absurd hadmits (hbad access haccess)
        · exact List.mem_filterMap.2 ⟨l, hl, hlp⟩
      refine ih (fun l hl => hcode l (List.mem_cons_of_mem _ hl)) hlater fun access haccess => ?_
      rw [State.access?_congr htouched.general] at haccess
      rw [State.admits_iff htouched.domain]
      exact hbad access haccess

end Stretches

end SplitRadix.Machine

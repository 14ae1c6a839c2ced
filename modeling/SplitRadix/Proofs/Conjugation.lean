import Mathlib.Algebra.Ring.Pi
import Mathlib.Data.Fintype.Basic
import Mathlib.Tactic.FinCases
import Mathlib.Tactic.Ring
import SplitRadix.Proofs.Execution

/-!
# The inverse direction is the conjugate of the forward one

Vectors have four lanes: the real and imaginary parts of two complex numbers, over any commutative
ring. Running kernels in the inverse direction gives the conjugate of what they give in the forward
direction on conjugated data, with the same twiddles.

Of each vector register it is enough to know how its contents in the two runs belong together: they
are conjugate, or conjugate up to the sign, or the same. A rotation changes the sign, and exactly the
sums that mix a rotated vector with one that is not are those that swap. A `Context` says what is
known of the registers, and `Context.after` how a line changes that.

* `Alike`: two states that belong together, as far as a context says.
* `execLine_alike`: a line keeps them together; `walk_alike`, `run_alike`: so do walks and runs.
* `check`: whether the lines of a kernel fit together, found out by evaluation.
* `inverse_conjugates_forward`: any sequence of kernels.
-/

namespace SplitRadix.Machine

open Leaf (Pass)

universe u

/-! ## Vectors over a ring -/

/-- The four lanes of a vector. -/
abbrev Vec (R : Type u) := Fin 4 → R

variable {R : Type u} [CommRing R]

/-- Negate the imaginary parts, which are in lanes 1 and 3. -/
def conj (v : Vec R) : Vec R := fun i => if i = 1 ∨ i = 3 then -v i else v i

/-- The exclusive or with a mask: where the mask has a sign bit, the lane is negated. -/
def signed (mask : List UInt32) (v : Vec R) : Vec R := fun i =>
  if mask[i.val]? = some 0x80000000 then -v i else v i

/-- Two lanes of each vector, given by two bits each. -/
def shuffled (control : UInt8) (v w : Vec R) : Vec R := fun i =>
  (if i.val < 2 then v else w) (Fin.ofNat 4 (control.toNat >>> (2 * i.val)))

/-- The operations of the processor, lane by lane in the ring. -/
def ringUnit : VectorUnit (Vec R) where
  add v w := v + w
  sub v w := v - w
  mul v w := v * w
  mirror := signed rotationMask
  shuffle := shuffled

@[simp] theorem conj_conj (v : Vec R) : conj (conj v) = v := by
  ext i
  unfold conj
  split <;> simp

theorem conj_add (v w : Vec R) : conj (v + w) = conj v + conj w := by
  ext i
  simp only [conj, Pi.add_apply]
  split <;> ring

theorem conj_neg (v : Vec R) : conj (-v) = -conj v := by
  ext i
  simp only [conj, Pi.neg_apply]
  split <;> ring

theorem conj_sub (v w : Vec R) : conj (v - w) = conj v - conj w := by
  rw [sub_eq_add_neg, conj_add, conj_neg, ← sub_eq_add_neg]

/-- Twiddles are multiplied lane by lane. -/
theorem conj_mul (v w : Vec R) : conj (v * w) = conj v * w := by
  ext i
  simp only [conj, Pi.mul_apply]
  split <;> ring

theorem signed_rotationMask (v : Vec R) : signed rotationMask v = conj v := by
  ext i
  fin_cases i <;> simp [signed, conj, rotationMask]

/-- The swap of a rotation turns a conjugate into a conjugate of the other sign. -/
theorem shuffled_conj (v : Vec R) : shuffled 0xB1 (conj v) (conj v) = -conj (shuffled 0xB1 v v) := by
  ext i
  fin_cases i <;> simp [shuffled, conj, Fin.ofNat]

theorem shuffled_neg (control : UInt8) (v : Vec R) :
    shuffled control (-v) (-v) = -shuffled control v v := by
  ext i
  simp [shuffled]

/-- The conjugate of an array. -/
def conjugated (array : Vectors (Vec R)) : Vectors (Vec R) := fun i => (array i).map conj

theorem vectorAt_conjugated (array : Vectors (Vec R)) (offset : BitVec 64) :
    vectorAt (conjugated array) offset = (vectorAt array offset).map conj := by
  unfold vectorAt conjugated
  split <;> rfl

/-! ## What is known of two runs -/

/-- How the contents of a vector register in the two runs belong together. -/
inductive Parity where
  | even     -- conjugate
  | odd      -- conjugate with the other sign
  | fixed    -- the same
  deriving DecidableEq, Repr

def Parity.Holds : Parity → Vec R → Vec R → Prop
  | even, v, w => v = conj w
  | odd, v, w => v = -conj w
  | fixed, v, w => v = w

namespace Parity

/-- Vectors of one parity have a sum and a difference of this parity. -/
def sum (p q : Parity) : Option Parity := if p = q then some p else none

/-- A factor that is the same in both runs keeps the parity. -/
def product (p q : Parity) : Option Parity := if q = fixed then some p else none

/-- A sum in one run against a difference in the other is for a second operand of the other sign. -/
def mixed : Parity → Parity → Option Parity
  | even, odd => some even
  | _, _ => none

/-- The parity after the swap of a rotation. -/
def swapped : Parity → Parity
  | even => odd
  | odd => even
  | fixed => fixed

/-- Operations of the two runs whose results belong together as `join` says. -/
def Respects (join : Parity → Parity → Option Parity) (f g : Vec R → Vec R → Vec R) : Prop :=
  ∀ p q r v w v' w', join p q = some r → p.Holds v v' → q.Holds w w' → r.Holds (f v w) (g v' w')

theorem sum_respects_add : Respects (R := R) sum (· + ·) (· + ·) := by
  intro p q r v w v' w' hjoin hv hw
  unfold sum at hjoin
  split at hjoin
  · rename_i hsame
    cases hjoin
    cases hsame
    cases p <;> simp only [Holds] at hv hw ⊢ <;> rw [hv, hw]
    · rw [conj_add]
    · rw [conj_add, neg_add]
  · cases hjoin

theorem sum_respects_sub : Respects (R := R) sum (· - ·) (· - ·) := by
  intro p q r v w v' w' hjoin hv hw
  unfold sum at hjoin
  split at hjoin
  · rename_i hsame
    cases hjoin
    cases hsame
    cases p <;> simp only [Holds] at hv hw ⊢ <;> rw [hv, hw]
    · rw [conj_sub]
    · rw [conj_sub]
      ring
  · cases hjoin

theorem product_respects_mul : Respects (R := R) product (· * ·) (· * ·) := by
  intro p q r v w v' w' hjoin hv hw
  unfold product at hjoin
  split at hjoin
  · rename_i hfixed
    cases hjoin
    cases hfixed
    cases p <;> simp only [Holds] at hv hw ⊢ <;> rw [hv, hw]
    · rw [conj_mul]
    · rw [conj_mul, neg_mul]
  · cases hjoin

/-- Where the inverse direction subtracts, the forward one adds. -/
theorem mixed_respects_add : Respects (R := R) mixed (· - ·) (· + ·) := by
  intro p q r v w v' w' hjoin hv hw
  unfold mixed at hjoin
  split at hjoin
  · cases hjoin
    simp only [Holds] at hv hw ⊢
    rw [hv, hw, conj_add, sub_neg_eq_add]
  · cases hjoin

theorem mixed_respects_sub : Respects (R := R) mixed (· + ·) (· - ·) := by
  intro p q r v w v' w' hjoin hv hw
  unfold mixed at hjoin
  split at hjoin
  · cases hjoin
    simp only [Holds] at hv hw ⊢
    rw [hv, hw, conj_sub, ← sub_eq_add_neg]
  · cases hjoin

theorem holds_mirror {p : Parity} {v w : Vec R} (h : p.Holds v w) :
    p.Holds (signed rotationMask v) (signed rotationMask w) := by
  rw [signed_rotationMask, signed_rotationMask]
  cases p <;> simp only [Holds] at h ⊢ <;> rw [h]
  rw [conj_neg]

theorem holds_swapped {p : Parity} {v w : Vec R} (h : p.Holds v w) :
    p.swapped.Holds (shuffled 0xB1 v v) (shuffled 0xB1 w w) := by
  cases p <;> simp only [Holds, swapped] at h ⊢ <;> rw [h]
  · exact shuffled_conj w
  · rw [shuffled_neg, shuffled_conj, neg_neg]

end Parity

/-- What kind of value a general register holds. -/
inductive Kind where
  | number
  | pointer (segment : Segment)
  deriving DecidableEq, Repr

def Value.kind : Value → Kind
  | number _ => .number
  | pointer segment _ => .pointer segment

@[simp] theorem Value.kind_advance (v : Value) (n : BitVec 64) : (v.advance n).kind = v.kind := by
  cases v <;> rfl

/-- What is known of the registers in the two runs. -/
structure Context where
  general : Gpr → Option Kind := fun _ => none      -- the same value in both, of this kind
  vector : Xmm → Option Parity := fun _ => none
  compared : Bool := false                          -- the last comparison had the same outcome

namespace Context

def set (c : Context) (dst : Gpr) (kind : Kind) : Context :=
  { c with general := fun r => if r = dst then some kind else c.general r }

def setVector (c : Context) (dst : Xmm) (parity : Parity) : Context :=
  { c with vector := fun r => if r = dst then some parity else c.vector r }

/-- The kind of the base of a memory operand. -/
def base (c : Context) : Option Gpr → Option Kind
  | none => some .number
  | some r => c.general r

/-- The kind of a memory operand, if its index is known to be a number. -/
def kind? (c : Context) (a : Address) : Option Kind :=
  if a.index.all fun index => c.general index.1 = some .number then c.base a.base else none

/-- The parity of the vectors in a segment. -/
def stored : Segment → Option Parity
  | .input | .output => some .even
  | .twiddles => some .fixed
  | .positions => none

/-- The context after a vector load from an address of some kind. -/
def afterLoad (c : Context) (dst : Xmm) (address : Option Kind) : Option Context :=
  match address with
  | some (.pointer segment) => (stored segment).map (c.setVector dst)
  | _ => none

/-- The context after an operation on two vectors. -/
def afterCombine (c : Context) (join : Parity → Parity → Option Parity) (dst src : Xmm) :
    Option Context :=
  (c.vector dst).bind fun p => (c.vector src).bind fun q => (join p q).map (c.setVector dst)

/-- The context after a packed operation that is the same in both runs. -/
def afterPacked (c : Context) (dst src : Xmm) : Packed → Option Context
  | .add | .sub => c.afterCombine Parity.sum dst src
  | .mul => c.afterCombine Parity.product dst src
  | .xor => if src = maskRegister then (c.vector dst).map (c.setVector dst) else none

/-- The context after an instruction, if both runs can go on together. -/
def afterInstruction (c : Context) : Instruction → Option Context
  | .loadImmediate dst _ => some (c.set dst .number)
  | .addImmediate .qword dst _ =>
    (c.general dst).map fun kind => { c.set dst kind with compared := false }
  | .move dst src => (c.general src).map (c.set dst)
  | .load .dword dst src =>
    if c.kind? src = some (.pointer .positions) then some (c.set dst .number) else none
  | .loadAddress dst src => (c.kind? src).map (c.set dst)
  | .compare first second =>
    if (c.general first).isSome ∧ (c.general second).isSome then some { c with compared := true }
    else none
  | .xorLow dst src =>
    if dst = src then some { c.set dst .number with compared := false } else none
  | .moveVector dst src => (c.vector src).map (c.setVector dst)
  | .loadVector dst src => c.afterLoad dst (c.kind? src)
  | .storeVector dst src =>
    if c.kind? dst = some (.pointer .output) ∧ c.vector src = some .even then some c else none
  | .packed op dst src => c.afterPacked dst src op
  | .shuffle dst src control =>
    if dst = src ∧ control = 0xB1 then
      (c.vector dst).map fun parity => c.setVector dst parity.swapped
    else none
  | _ => none

/-- The context after a line. A sum that swaps mixes the two parities. -/
def after (c : Context) : Line → Option Context
  | .plain i => c.afterInstruction i
  | .patched dst base => c.afterLoad dst (c.general base)
  | .flipped op dst src => if op = .add ∨ op = .sub then c.afterCombine Parity.mixed dst src else none
  | .loopHead | .loopBack => none

/-- One context says no more than another. -/
def Within (c d : Context) : Prop :=
  (∀ i : Fin 16, c.general ⟨i⟩ = none ∨ c.general ⟨i⟩ = d.general ⟨i⟩) ∧
    (∀ i : Fin 16, c.vector ⟨i⟩ = none ∨ c.vector ⟨i⟩ = d.vector ⟨i⟩) ∧
    (c.compared = true → d.compared = true)

instance (c d : Context) : Decidable (c.Within d) := inferInstanceAs (Decidable (_ ∧ _))

end Context

/-- Whether lines keep two runs together from a context on. What is known at the head of a loop has to
be known again before each jump back to it. -/
def check (head : Option Context) : List Line → Context → Bool
  | [], _ => true
  | .loopHead :: rest, c => check (some c) rest c
  | .loopBack :: rest, c =>
    c.compared && (head.any fun d => d.Within c) && check head rest c
  | .plain .ret :: _, _ => true
  | line :: rest, c => (c.after line).any (check head rest)

/-! ## States that belong together -/

/-- Two states, of the inverse and of the forward run, of which a context holds. -/
structure Alike (c : Context) (s t : State (Vec R)) : Prop where
  general : ∀ r kind, c.general r = some kind → t.general r = s.general r ∧ (s.general r).kind = kind
  vector : ∀ r parity, c.vector r = some parity → parity.Holds (s.vector r) (t.vector r)
  below : c.compared = true → t.below = s.below
  output : s.output = conjugated t.output

/-- The memory of the inverse run holds the conjugated input and the same tables. -/
structure Memory.Conjugates (m n : Memory (Vec R)) : Prop where
  input : ∀ offset, m.input offset = (n.input offset).map conj
  twiddles : m.twiddles = n.twiddles
  positions : m.positions = n.positions

namespace Alike

variable {c d : Context} {s t : State (Vec R)} {m n : Memory (Vec R)}

theorem within (h : Alike c s t) (hwithin : d.Within c) : Alike d s t where
  general r kind hkind := by
    rcases hwithin.1 r.code with hnone | hsame
    · rw [hnone] at hkind
      cases hkind
    · exact h.general r kind (hsame ▸ hkind)
  vector r parity hparity := by
    rcases hwithin.2.1 r.code with hnone | hsame
    · rw [hnone] at hparity
      cases hparity
    · exact h.vector r parity (hsame ▸ hparity)
  below hcompared := h.below (hwithin.2.2 hcompared)
  output := h.output

theorem set (h : Alike c s t) (dst : Gpr) (v : Value) :
    Alike (c.set dst v.kind) (s.set dst v) (t.set dst v) where
  general r kind hkind := by
    replace hkind : (if r = dst then some v.kind else c.general r) = some kind := hkind
    by_cases hr : r = dst
    · rw [if_pos hr] at hkind
      cases hkind
      rw [hr, State.set_same, State.set_same]
      exact ⟨rfl, rfl⟩
    · rw [if_neg hr] at hkind
      rw [State.set_other _ hr, State.set_other _ hr]
      exact h.general r kind hkind
  vector := h.vector
  below := h.below
  output := h.output

/-- An instruction that leaves other flags than a comparison. -/
theorem uncompared (h : Alike c s t) : Alike { c with compared := false }
    { s with below := none } { t with below := none } :=
  { h with below := fun hcompared => by cases hcompared }

theorem noting (h : Alike c s t) (access : Access) : Alike c (s.noting access) (t.noting access) :=
  { h with }

theorem setVector (h : Alike c s t) (dst : Xmm) {parity : Parity} {v w : Vec R}
    (hparity : parity.Holds v w) :
    Option.Rel (Alike (c.setVector dst parity)) (s.setVector dst v) (t.setVector dst w) := by
  unfold State.setVector
  by_cases hmask : dst = maskRegister
  · rw [if_pos hmask, if_pos hmask]
    exact .none
  · rw [if_neg hmask, if_neg hmask]
    refine .some ⟨h.general, fun r p hp => ?_, h.below, h.output⟩
    replace hp : (if r = dst then some parity else c.vector r) = some p := hp
    by_cases hr : r = dst
    · rw [if_pos hr] at hp
      cases hp
      dsimp only
      rw [if_pos hr, if_pos hr]
      exact hparity
    · rw [if_neg hr] at hp
      dsimp only
      rw [if_neg hr, if_neg hr]
      exact h.vector r p hp

theorem combine (h : Alike c s t) {f g : Vec R → Vec R → Vec R} {dst src : Xmm} {parity : Parity}
    (hparity : parity.Holds (f (s.vector dst) (s.vector src)) (g (t.vector dst) (t.vector src))) :
    Option.Rel (Alike (c.setVector dst parity)) (s.combine f dst src) (t.combine g dst src) := by
  unfold State.combine State.vector?
  by_cases hdst : dst = maskRegister
  · rw [if_pos hdst, if_pos hdst]
    exact .none
  · by_cases hsrc : src = maskRegister
    · rw [if_neg hdst, if_neg hdst, if_pos hsrc, if_pos hsrc]
      exact .none
    · rw [if_neg hdst, if_neg hdst, if_neg hsrc, if_neg hsrc]
      exact h.setVector dst hparity

theorem afterCombine (h : Alike c s t) {join : Parity → Parity → Option Parity}
    {f g : Vec R → Vec R → Vec R} (hrespects : Parity.Respects join f g) {dst src : Xmm}
    (hafter : c.afterCombine join dst src = some d) :
    Option.Rel (Alike d) (s.combine f dst src) (t.combine g dst src) := by
  obtain ⟨p, hp, hafter⟩ := Option.bind_eq_some_iff.1 hafter
  obtain ⟨q, hq, hafter⟩ := Option.bind_eq_some_iff.1 hafter
  obtain ⟨r, hr, rfl⟩ := Option.map_eq_some_iff.1 hafter
  exact h.combine (hrespects p q r _ _ _ _ hr (h.vector dst p hp) (h.vector src q hq))

theorem base (h : Alike c s t) {r : Option Gpr} {kind : Kind} (hkind : c.base r = some kind) :
    t.base r = s.base r ∧ (s.base r).kind = kind := by
  cases r with
  | none =>
    cases hkind
    exact ⟨rfl, rfl⟩
  | some r => exact h.general r kind hkind

theorem index? (h : Alike c s t) {index : Option (Gpr × Scale)}
    (hindex : (index.all fun i => c.general i.1 = some .number) = true) :
    ∃ n, s.index? index = some n ∧ t.index? index = some n := by
  cases index with
  | none => exact ⟨0, rfl, rfl⟩
  | some index =>
    obtain ⟨hsame, hkind⟩ := h.general index.1 .number (by simpa using hindex)
    cases hi : s.general index.1 with
    | pointer g o =>
      rw [hi] at hkind
      cases hkind
    | number n =>
      rw [hi] at hsame
      simp [State.index?, hi, hsame, Value.number?]

/-- A memory operand of known kind has one value in both runs. -/
theorem value? (h : Alike c s t) {a : Address} {kind : Kind} (hkind : c.kind? a = some kind) :
    ∃ v, s.value? a = some v ∧ t.value? a = some v ∧ v.kind = kind := by
  unfold Context.kind? at hkind
  split at hkind
  · rename_i hnumber
    obtain ⟨n, hs, ht⟩ := h.index? hnumber
    obtain ⟨hsame, hkind⟩ := h.base hkind
    refine ⟨(s.base a.base).advance (n + BitVec.ofInt 64 a.disp), ?_, ?_, by simp [hkind]⟩
    · simp [State.value?, hs]
    · simp [State.value?, ht, hsame]
  · cases hkind

/-- A vector load from an address of known kind. -/
theorem load (hmemory : m.Conjugates n) (h : Alike c s t) {dst : Xmm} {a : Address}
    (hafter : c.afterLoad dst (c.kind? a) = some d) :
    Option.Rel (Alike d) (exec ringUnit m (.loadVector dst a) s)
      (exec ringUnit n (.loadVector dst a) t) := by
  unfold Context.afterLoad at hafter
  split at hafter
  · rename_i segment hkind
    obtain ⟨v, hs, ht, hv⟩ := h.value? hkind
    obtain ⟨offset, rfl⟩ : ∃ offset, v = .pointer segment offset := by
      cases v with
      | number _ => cases hv
      | pointer g offset => cases hv; exact ⟨offset, rfl⟩
    obtain ⟨parity, hparity, rfl⟩ := Option.map_eq_some_iff.1 hafter
    simp only [exec, State.access?, hs, ht, Option.bind_some]
    have hfetched : Option.Rel parity.Holds (s.fetch? m segment offset)
        (t.fetch? n segment offset) := by
      cases segment with
      | input =>
        cases hparity
        simp only [State.fetch?, hmemory.input]
        cases n.input offset with
        | none => exact .none
        | some w => exact .some rfl
      | output =>
        cases hparity
        simp only [State.fetch?, h.output, vectorAt_conjugated]
        cases vectorAt t.output offset with
        | none => exact .none
        | some w => exact .some rfl
      | twiddles =>
        cases hparity
        simp only [State.fetch?, hmemory.twiddles]
        cases n.twiddles offset with
        | none => exact .none
        | some w => exact .some rfl
      | positions => cases hparity
    generalize s.fetch? m segment offset = v, t.fetch? n segment offset = w at hfetched ⊢
    cases hfetched with
    | none => exact .none
    | some hvw => exact (h.noting _).setVector dst hvw
  · cases hafter

/-- A store of conjugate vectors. -/
theorem store (h : Alike c s t) {a : Address} {src : Xmm}
    (hkind : c.kind? a = some (.pointer .output)) (hparity : c.vector src = some .even) :
    Option.Rel (Alike c) (exec ringUnit m (.storeVector a src) s)
      (exec ringUnit n (.storeVector a src) t) := by
  obtain ⟨v, hs, ht, hv⟩ := h.value? hkind
  obtain ⟨offset, rfl⟩ : ∃ offset, v = .pointer .output offset := by
    cases v with
    | number _ => cases hv
    | pointer g offset => cases hv; exact ⟨offset, rfl⟩
  have heven : s.vector src = conj (t.vector src) := h.vector src .even hparity
  simp only [exec, State.access?, hs, ht, Option.bind_some, State.vector?]
  by_cases hmask : src = maskRegister
  · rw [if_pos hmask, if_pos hmask]
    exact .none
  · simp only [if_neg hmask, Option.bind_some, true_and, h.output, vectorAt_conjugated,
      Option.isSome_map]
    by_cases hthere : (vectorAt t.output offset).isSome = true
    · rw [if_pos hthere, if_pos hthere]
      refine .some ⟨h.general, h.vector, h.below, ?_⟩
      funext i
      simp only [State.put, State.noting, conjugated, h.output]
      split
      · rw [heven]
        rfl
      · rfl
    · rw [if_neg hthere, if_neg hthere]
      exact .none

/-- A packed operation that is the same in both runs. -/
theorem packed (h : Alike c s t) {op : Packed} {dst src : Xmm}
    (hafter : c.afterPacked dst src op = some d) :
    Option.Rel (Alike d) (exec ringUnit m (.packed op dst src) s)
      (exec ringUnit n (.packed op dst src) t) := by
  cases op with
  | add => exact h.afterCombine Parity.sum_respects_add hafter
  | sub => exact h.afterCombine Parity.sum_respects_sub hafter
  | mul => exact h.afterCombine Parity.product_respects_mul hafter
  | xor =>
    obtain ⟨hsrc, hafter⟩ := Option.ite_none_right_eq_some.1 hafter
    obtain ⟨parity, hparity, rfl⟩ := Option.map_eq_some_iff.1 hafter
    simp only [exec, if_pos hsrc, State.vector?]
    by_cases hdst : dst = maskRegister
    · rw [if_pos hdst, if_pos hdst]
      exact .none
    · rw [if_neg hdst, if_neg hdst]
      exact h.setVector dst (Parity.holds_mirror (h.vector dst parity hparity))

/-- The swap of a rotation. -/
theorem shuffle (h : Alike c s t) {r : Xmm} {parity : Parity} (hparity : c.vector r = some parity) :
    Option.Rel (Alike (c.setVector r parity.swapped)) (exec ringUnit m (.shuffle r r 0xB1) s)
      (exec ringUnit n (.shuffle r r 0xB1) t) :=
  h.combine (Parity.holds_swapped (h.vector r parity hparity))

theorem compare (h : Alike c s t) {first second : Gpr} (hfirst : (c.general first).isSome)
    (hsecond : (c.general second).isSome) :
    Option.Rel (Alike { c with compared := true }) (exec ringUnit m (.compare first second) s)
      (exec ringUnit n (.compare first second) t) := by
  obtain ⟨p, hp⟩ := Option.isSome_iff_exists.1 hfirst
  obtain ⟨q, hq⟩ := Option.isSome_iff_exists.1 hsecond
  simp only [exec, (h.general first p hp).1, (h.general second q hq).1]
  cases (s.general first).below? (s.general second) with
  | none => exact .none
  | some below => exact .some { h with below := fun _ => rfl }

/-- The dword at a known position. -/
theorem position (hmemory : m.Conjugates n) (h : Alike c s t) {dst : Gpr} {a : Address}
    (hkind : c.kind? a = some (.pointer .positions)) :
    Option.Rel (Alike (c.set dst .number)) (exec ringUnit m (.load .dword dst a) s)
      (exec ringUnit n (.load .dword dst a) t) := by
  obtain ⟨v, hs, ht, hv⟩ := h.value? hkind
  cases v with
  | number _ => cases hv
  | pointer segment offset =>
    cases hv
    simp only [exec, hs, ht, hmemory.positions]
    cases n.positions offset with
    | none => exact .none
    | some w => exact .some (h.set dst (.number (w.setWidth 64)))

/-- An instruction keeps states together, or faults in both runs. -/
theorem exec (hmemory : m.Conjugates n) (h : Alike c s t) {i : Instruction}
    (hafter : c.afterInstruction i = some d) :
    Option.Rel (Alike d) (exec ringUnit m i s) (exec ringUnit n i t) := by
  cases i with
  | loadImmediate dst value =>
    cases hafter
    exact .some (h.set dst (.number (value.toBitVec.setWidth 64)))
  | addImmediate width dst value =>
    cases width with
    | dword => cases hafter
    | qword =>
      obtain ⟨kind, hkind, rfl⟩ := Option.map_eq_some_iff.1 hafter
      obtain ⟨hsame, rfl⟩ := h.general dst kind hkind
      have hset := (h.set dst ((s.general dst).advance (BitVec.ofInt 64 value))).uncompared
      rw [Value.kind_advance] at hset
      refine .some ?_
      rw [hsame]
      exact hset
  | move dst src =>
    obtain ⟨kind, hkind, rfl⟩ := Option.map_eq_some_iff.1 hafter
    obtain ⟨hsame, rfl⟩ := h.general src kind hkind
    refine .some ?_
    rw [hsame]
    exact h.set dst (s.general src)
  | load width dst src =>
    cases width with
    | qword => cases hafter
    | dword =>
      obtain ⟨hkind, hafter⟩ := Option.ite_none_right_eq_some.1 hafter
      cases hafter
      exact h.position hmemory hkind
  | loadAddress dst src =>
    obtain ⟨kind, hkind, rfl⟩ := Option.map_eq_some_iff.1 hafter
    obtain ⟨v, hs, ht, rfl⟩ := h.value? hkind
    simp only [Machine.exec, hs, ht]
    exact .some (h.set dst v)
  | compare first second =>
    obtain ⟨hknown, hafter⟩ := Option.ite_none_right_eq_some.1 hafter
    cases hafter
    exact h.compare hknown.1 hknown.2
  | xorLow dst src =>
    obtain ⟨hsame, hafter⟩ := Option.ite_none_right_eq_some.1 hafter
    cases hafter
    simp only [Machine.exec, if_pos hsame]
    exact .some (h.set dst (.number 0)).uncompared
  | moveVector dst src =>
    obtain ⟨parity, hparity, rfl⟩ := Option.map_eq_some_iff.1 hafter
    simp only [Machine.exec, State.vector?]
    by_cases hsrc : src = maskRegister
    · rw [if_pos hsrc, if_pos hsrc]
      exact .none
    · rw [if_neg hsrc, if_neg hsrc]
      exact h.setVector dst (h.vector src parity hparity)
  | loadVector dst src => exact h.load hmemory hafter
  | storeVector dst src =>
    obtain ⟨hknown, hafter⟩ := Option.ite_none_right_eq_some.1 hafter
    cases hafter
    exact h.store hknown.1 hknown.2
  | packed op dst src => exact h.packed hafter
  | shuffle dst src control =>
    obtain ⟨⟨rfl, rfl⟩, hswapped⟩ := Option.ite_none_right_eq_some.1 hafter
    obtain ⟨parity, hparity, rfl⟩ := Option.map_eq_some_iff.1 hswapped
    exact h.shuffle hparity
  | _ => cases hafter

/-- So does a line. Where the directions differ, one run adds what the other subtracts. -/
theorem execLine (hmemory : m.Conjugates n) (h : Alike c s t) {line : Line}
    (hafter : c.after line = some d) :
    Option.Rel (Alike d) (execLine ringUnit m .inverse line s)
      (execLine ringUnit n .forward line t) := by
  cases line with
  | plain i => exact h.exec hmemory hafter
  | patched dst base => exact .none
  | flipped op dst src =>
    obtain ⟨hop, hafter⟩ := Option.ite_none_right_eq_some.1 hafter
    rcases hop with rfl | rfl
    · exact h.afterCombine Parity.mixed_respects_add hafter
    · exact h.afterCombine Parity.mixed_respects_sub hafter
  | loopHead => exact .none
  | loopBack => exact .none

end Alike

/-! ## Runs that belong together -/

section Runs

variable {m n : Memory (Vec R)} {c : Context} {s t : State (Vec R)}

/-- The ends of two walks that belong together. -/
inductive LegsAlike : Leg (Vec R) → Leg (Vec R) → Prop where
  | returned {s t : State (Vec R)} (h : s.output = conjugated t.output) :
    LegsAlike (.returned s) (.returned t)
  | again {head : List Line} {d : Context} {s t : State (Vec R)}
    (hcheck : check (some d) head d = true) (h : Alike d s t) :
    LegsAlike (.again head s) (.again head t)

theorem check_line {known : Option Context} {line : Line} {rest : List Line}
    (hline : line.isStraight = true) :
    check known (line :: rest) c = (c.after line).any (check known rest) := by
  cases line with
  | plain i =>
    cases i with
    | ret => cases hline
    | _ => rfl
  | patched dst base => rfl
  | flipped op dst src => rfl
  | loopHead => cases hline
  | loopBack => cases hline

/-- Two walks through checked lines stay together. The context at the head of the loop is the
invariant of the loop. -/
theorem walk_alike (hmemory : m.Conjugates n) {known : Option Context} {head code : List Line}
    (hcheck : check known code c = true)
    (hhead : ∀ d, known = some d → check (some d) head d = true) (h : Alike c s t) :
    Option.Rel LegsAlike (walk ringUnit m .inverse head code s)
      (walk ringUnit n .forward head code t) := by
  induction code generalizing known head c s t with
  | nil => exact .some (.returned h.output)
  | cons line rest ih =>
    by_cases hline : line.isStraight = true
    · rw [check_line hline] at hcheck
      obtain ⟨d, hafter, hrest⟩ := (Option.any_eq_true _ _).1 hcheck
      rw [walk_line hline, walk_line hline]
      have hexec := h.execLine hmemory hafter
      generalize execLine ringUnit m .inverse line s = first,
        execLine ringUnit n .forward line t = second at hexec
      cases hexec with
      | none => exact .none
      | some halike => exact ih hrest hhead halike
    · cases line with
      | plain i =>
        cases i with
        | ret => exact .some (.returned h.output)
        | _ => exact absurd rfl hline
      | patched dst base => exact absurd rfl hline
      | flipped op dst src => exact absurd rfl hline
      | loopHead => exact ih hcheck (fun d hd => by cases hd; exact hcheck) h
      | loopBack =>
        simp only [check, Bool.and_eq_true] at hcheck
        obtain ⟨⟨hcompared, hwithin⟩, hrest⟩ := hcheck
        obtain ⟨d, hd, hwithin⟩ := (Option.any_eq_true _ _).1 hwithin
        simp only [walk, h.below hcompared]
        cases s.below with
        | none => exact .none
        | some below =>
          cases below with
          | true => exact .some (.again (hhead d hd) (h.within (of_decide_eq_true hwithin)))
          | false => exact ih hrest hhead h

/-- Two runs of checked lines end in the same way, with conjugate outputs. -/
theorem run_alike (hmemory : m.Conjugates n) (turns : Nat) {known : Option Context}
    {head code : List Line} (hcheck : check known code c = true)
    (hhead : ∀ d, known = some d → check (some d) head d = true) (h : Alike c s t) :
    (run ringUnit m .inverse turns head code s).map State.output =
      (run ringUnit n .forward turns head code t).map fun t => conjugated t.output := by
  have hlegs := walk_alike hmemory hcheck hhead h
  induction turns generalizing known head code c s t with
  | zero =>
    rw [run, run]
    generalize walk ringUnit m .inverse head code s = first,
      walk ringUnit n .forward head code t = second at hlegs
    cases hlegs with
    | none => rfl
    | some hleg =>
      cases hleg with
      | returned houtput => exact congrArg Except.ok houtput
      | again _ _ => rfl
  | succ turns ih =>
    rw [run, run]
    generalize walk ringUnit m .inverse head code s = first,
      walk ringUnit n .forward head code t = second at hlegs
    cases hlegs with
    | none => rfl
    | some hleg =>
      cases hleg with
      | returned houtput => exact congrArg Except.ok houtput
      | @again next d _ _ hcheck halike =>
        have hnext : ∀ d', some d = some d' → check (some d') next d' = true :=
          fun d' hd => by cases hd; exact hcheck
        exact ih hcheck hnext halike (walk_alike hmemory hcheck hnext halike)

end Runs

/-! ## Filled-in displacements -/

theorem check_cons {first second : List Line}
    (h : ∀ known c, check known first c = check known second c) (known : Option Context)
    (line : Line) (c : Context) : check known (line :: first) c = check known (line :: second) c := by
  by_cases hline : line.isStraight = true
  · rw [check_line hline, check_line hline, funext (h known)]
  · cases line with
    | plain i =>
      cases i with
      | ret => rfl
      | _ => exact absurd rfl hline
    | patched dst base => exact absurd rfl hline
    | flipped op dst src => exact absurd rfl hline
    | loopHead => exact h (some c) c
    | loopBack => simp only [check, h known c]

/-- Any displacements will do. -/
theorem check_fill (values : List UInt32) (lines : List Line) (known : Option Context) (c : Context) :
    check known (fill values lines) c = check known lines c := by
  fun_induction fill values lines generalizing known c with
  | case1 value values dst base rest ih =>
    rw [check_line rfl, check_line rfl, funext (ih known)]
    rfl
  | case2 values line rest _ ih => exact check_cons ih known line c
  | case3 => rfl

/-! ## Sequences of kernels -/

/-- What a leaf pass finds in the registers. -/
structure LeafEntry where
  index : BitVec 64
  bound : BitVec 64
  input : BitVec 64        -- where the input starts, in bytes from the start of its segment
  positions : BitVec 64
  output : BitVec 64

/-- What a base case finds in the registers. -/
structure CallEntry where
  size : BitVec 64
  output : BitVec 64
  twiddles : BitVec 64

/-- A kernel to run. -/
inductive Task where
  | block (pass : Pass) (offsets : List UInt32) (entry : LeafEntry)    -- one block of a leaf pass
  | pass (pass : Pass) (offsets : List UInt32) (entry : LeafEntry)
  | base4 (entry : CallEntry)
  | base8 (entry : CallEntry)

def LeafEntry.registers (entry : LeafEntry) : List (Gpr × Value) :=
  [(.rax, .number entry.index), (.rcx, .number entry.bound), (.r9, .pointer .input entry.input),
   (.r10, .pointer .positions entry.positions), (.rdx, .pointer .output entry.output)]

def CallEntry.registers (entry : CallEntry) : List (Gpr × Value) :=
  [(.rcx, .number entry.size), (.rdx, .pointer .output entry.output),
   (.r8, .pointer .twiddles entry.twiddles)]

namespace Task

def code : Task → List Line
  | .block p offsets _ => fill offsets (leafBlock p)
  | .pass p offsets _ => fill offsets (leafPass p)
  | .base4 _ => baseCase4
  | .base8 _ => baseCase8

def registers : Task → List (Gpr × Value)
  | .block _ _ entry | .pass _ _ entry => entry.registers
  | .base4 entry | .base8 entry => entry.registers

/-- The state at the entry of the kernel. The other registers are as they are. -/
def enter {V : Type u} (task : Task) (s : State V) : State V :=
  task.registers.foldl (fun s p => s.set p.1 p.2) s

end Task

/-- Run kernels one after the other, each with at most `turns` jumps back. -/
def perform {V : Type u} (u : VectorUnit V) (m : Memory V) (direction : Direction) (turns : Nat) :
    List Task → State V → Except Stop (State V)
  | [], s => .ok s
  | task :: tasks, s =>
    (run u m direction turns [] task.code (task.enter s)).bind
      (perform u m direction turns tasks)

/-- What is known where a register has a value of its own kind in both runs. -/
def contextOf (kinds : List (Gpr × Kind)) : Context := kinds.foldl (fun c p => c.set p.1 p.2) {}

section Sequences

variable {m n : Memory (Vec R)} {s t : State (Vec R)}

theorem alike_of_output (h : s.output = conjugated t.output) : Alike {} s t where
  general _ _ hkind := by cases hkind
  vector _ _ hparity := by cases hparity
  below hcompared := by cases hcompared
  output := h

theorem alike_foldl {c : Context} (h : Alike c s t) (registers : List (Gpr × Value)) :
    Alike ((registers.map fun p => (p.1, p.2.kind)).foldl (fun c p => c.set p.1 p.2) c)
      (registers.foldl (fun s p => s.set p.1 p.2) s)
      (registers.foldl (fun s p => s.set p.1 p.2) t) := by
  induction registers generalizing c s t with
  | nil => exact h
  | cons p registers ih => exact ih (h.set p.1 p.2)

/-- Whatever the registers held before, two runs start together. -/
theorem Task.enter_alike (task : Task) (h : s.output = conjugated t.output) :
    Alike (contextOf (task.registers.map fun p => (p.1, p.2.kind))) (task.enter s)
      (task.enter t) :=
  alike_foldl (alike_of_output h) task.registers

theorem check_block (pass : Pass) : check none (leafBlock pass) (contextOf [(.rax, .number),
    (.rcx, .number), (.r9, .pointer .input), (.r10, .pointer .positions),
    (.rdx, .pointer .output)]) = true := by
  cases pass <;> decide +kernel

theorem check_pass (pass : Pass) : check none (leafPass pass) (contextOf [(.rax, .number),
    (.rcx, .number), (.r9, .pointer .input), (.r10, .pointer .positions),
    (.rdx, .pointer .output)]) = true := by
  cases pass <;> decide +kernel

/-- The lines of every kernel fit together. -/
theorem Task.check_code (task : Task) :
    check none task.code (contextOf (task.registers.map fun p => (p.1, p.2.kind))) = true := by
  cases task with
  | block pass offsets entry => exact (check_fill offsets _ _ _).trans (check_block pass)
  | pass pass offsets entry => exact (check_fill offsets _ _ _).trans (check_pass pass)
  | base4 entry =>
    show check none baseCase4 (contextOf [(.rcx, .number), (.rdx, .pointer .output),
      (.r8, .pointer .twiddles)]) = true
    decide +kernel
  | base8 entry =>
    show check none baseCase8 (contextOf [(.rcx, .number), (.rdx, .pointer .output),
      (.r8, .pointer .twiddles)]) = true
    decide +kernel

theorem perform_alike (hmemory : m.Conjugates n) (turns : Nat) (tasks : List Task)
    (h : s.output = conjugated t.output) :
    (perform ringUnit m .inverse turns tasks s).map State.output =
      (perform ringUnit n .forward turns tasks t).map fun t => conjugated t.output := by
  induction tasks generalizing s t with
  | nil => exact congrArg Except.ok h
  | cons task tasks ih =>
    have hhead : ∀ d, (none : Option Context) = some d → check (some d) [] d = true :=
      fun _ hd => by cases hd
    have hrun := run_alike hmemory turns task.check_code hhead (task.enter_alike h)
    unfold perform
    cases hs : run ringUnit m .inverse turns [] task.code (task.enter s) with
    | error stop =>
      rw [hs] at hrun
      cases ht : run ringUnit n .forward turns [] task.code (task.enter t) with
      | error stop' =>
        rw [ht] at hrun
        cases hrun
        rfl
      | ok t' =>
        rw [ht] at hrun
        cases hrun
    | ok s' =>
      rw [hs] at hrun
      cases ht : run ringUnit n .forward turns [] task.code (task.enter t) with
      | error stop' =>
        rw [ht] at hrun
        cases hrun
      | ok t' =>
        rw [ht] at hrun
        exact ih (Except.ok.inj hrun)

end Sequences

/-- Running kernels in the inverse direction gives the conjugate of running them in the forward
direction on the conjugated input and output: the same fault, or conjugate outputs. The twiddles and
the input index table are the same in both runs, and it does not matter what the registers held. -/
theorem inverse_conjugates_forward (turns : Nat) (tasks : List Task)
    (input output twiddles : Vectors (Vec R)) (positions : BitVec 64 → Option (BitVec 32))
    (s t : State (Vec R)) :
    (perform ringUnit ⟨vectorAt input, vectorAt twiddles, positions⟩ .inverse turns tasks
        { s with output }).map State.output =
      (perform ringUnit ⟨vectorAt (conjugated input), vectorAt twiddles, positions⟩ .forward turns
        tasks { t with output := conjugated output }).map fun t => conjugated t.output := by
  have hmemory : Memory.Conjugates (R := R) ⟨vectorAt input, vectorAt twiddles, positions⟩
      ⟨vectorAt (conjugated input), vectorAt twiddles, positions⟩ := by
    refine ⟨fun offset => ?_, rfl, rfl⟩
    simp only [vectorAt_conjugated]
    cases vectorAt input offset <;> simp
  refine perform_alike hmemory turns tasks (funext fun i => ?_)
  cases hi : output i <;> simp [conjugated, hi]

/-- A radix-4 step that returns: its second quarter in the inverse direction. In the forward one the
signs of the rotated part are the other way round. -/
example : ((perform (ringUnit (R := ℤ))
    ⟨fun _ => none, vectorAt fun _ => some fun _ => 3, fun _ => none⟩ .inverse 0 [.base4 ⟨8, 0, 0⟩]
    { general := fun _ => .number 0, vector := fun _ _ => 0,
      output := fun i => some fun lane => (10 * i + lane.val : ℕ) }).toOption.bind
        fun t => (t.output 1).map List.ofFn) = some [40, -19, 42, -17] := by
  decide +kernel

end SplitRadix.Machine

import Mathlib.Algebra.GroupWithZero.Nat
import SplitRadix.Proofs.CallChain
import SplitRadix.Proofs.Kernels

/-!
# Budgets for writing a routine

Many statements about a routine follow one pattern. Something is left before every piece is written,
each piece uses up its share, and a piece that fails does so in a way that was reckoned with. A
budget says what is left, which primitives may be asked for and which failures may occur;
`Budget.Covers` says that it can pay for every piece. The routine is then gone through once, here.

* `cost`, `stepCost`, `routineCost`: what the pieces take.
* `Covers.emit_ensures`: a budget that covers the pieces covers the routine.
-/

namespace SplitRadix.Routine

open Target Kernel Leaf
open Transform (Parameters)

variable {σ : Type}

/-- The most bytes of a primitive. -/
def cost (backend : Backend σ) : Primitive → Nat
  | .prologue => backend.prologueLength
  | .epilogue => backend.epilogueLength
  | .load .. | .add .. | .shift .. | .call _ => backend.maxPrimitive

/-- The most bytes of one alignment. -/
def slack (backend : Backend σ) : Nat := backend.fetchAlignment - 1

/-- The most bytes of a leaf pass, with its loop bound and the alignment of its loop head. -/
def stepCost (backend : Backend σ) (step : Step) : Nat :=
  (if step.reload.isSome then backend.maxPrimitive else 0) +
    ((if step.aligned then slack backend else 0) + (backend.kernels.leaf step.pass).length)

/-- The most bytes of a routine with the given leaf passes and number of nodes, in the order in which
they are written. -/
def routineCost (backend : Backend σ) (steps : List Step) (count : Nat) : Nat :=
  slack backend + (backend.kernels.x4.length + (slack backend + (backend.kernels.x8.length +
  (slack backend + (backend.prologueLength + (backend.maxPrimitive +
  (backend.kernels.leafInit.length + ((steps.map (stepCost backend)).sum +
  (backend.kernels.bridge.length + (backend.maxPrimitive * (4 * count) +
  backend.epilogueLength))))))))))

/-- The kernels that a routine copies, with the values that go into their fields. -/
inductive Copied (lib : Library) (size : Nat) : Template → List UInt32 → Prop where
  | fixed {t : Template} (h : t ∈ lib.fixed) : Copied lib size t []
  | leaf (pass : Pass) (order : OffsetOrder) {patches : List UInt32}
    (h : order.patchValues size = .ok patches) : Copied lib size (lib.leaf pass) patches

/-- What is accounted for while a routine is written. -/
structure Budget (σ : Type) where
  spare : Nat → Emission σ → Prop                        -- so many bytes may still be written
  kind : Primitive → Prop                                -- what may be asked for
  failure : Failure GenerateError → Emission σ → Prop    -- what may go wrong, and where it stops

/-- The budget pays for every piece of the routines of a transform. -/
structure Budget.Covers (b : Budget σ) (backend : Backend σ) (params : Parameters)
    (nodes : List Node) : Prop where
  mono : ∀ {m n e}, m ≤ n → b.spare n e → b.spare m e
  note : ∀ {n e} (event : Event), b.spare n e →
    b.spare n { e with events := e.events.push event }
  push : ∀ {n e} (bytes : Bytes), b.spare (bytes.length + n) e →
    b.spare n { e with buffer := e.buffer.push bytes }
  copyFailure : ∀ {n e t patches f}, Copied backend.kernels params.size t patches →
    b.spare (t.length + n) e → CopyFailure t patches e.buffer f → ∀ u, b.failure f u
  patches : ∀ {order : OffsetOrder} {x}, order.patchValues params.size = .error x →
    ∀ u, b.failure (.fault x) u
  emit : ∀ {p n e}, b.kind p → b.spare (cost backend p + n) e →
    (backend.emit p).Ensures e (fun _ t => b.spare n t) b.failure
  align : ∀ {bias n e}, bias ≤ n → b.spare (slack backend + n) e →
    (backend.align bias).Ensures e (fun _ t => b.spare n t) b.failure
  prologue : b.kind .prologue
  epilogue : b.kind .epilogue
  load : ∀ value, b.kind (.load .loopCounter value)
  addressOf : ∀ {m n e u x}, b.spare m e → b.spare n u →
    u.buffer.addressOf e.buffer.position = .error x → ∀ t, b.failure (.fault x) t
  call : ∀ {m n e u address}, b.spare m e → b.spare n u →
    u.buffer.addressOf e.buffer.position = .ok address → b.kind (.call address)
  script : ∀ targets : CallChain.Targets, b.kind (.call targets.x4) → b.kind (.call targets.x8) →
    (∀ p ∈ CallChain.requests (CallChain.script params targets nodes).2.toList, b.kind p) ∧
      ∀ f, (CallChain.script params targets nodes).1 = .error f → ∀ t, b.failure f t

namespace Budget.Covers

variable {b : Budget σ} {backend : Backend σ} {params : Parameters} {nodes : List Node}
variable {n : Nat} {e : Emission σ}

theorem copy_ensures (hb : b.Covers backend params nodes) (direction : Direction) {t : Template}
    {patches : List UInt32} (ht : t.WellFormed) (hc : Copied backend.kernels params.size t patches)
    (hs : b.spare (t.length + n) e) :
    (copy direction t patches).Ensures e
      (fun fragment u => b.spare n u ∧ fragment.offset = e.buffer.position) b.failure := by
  refine (Routine.copy_ensures direction ht patches e).mono ?_
    fun f _ hf => hb.copyFailure hc hs hf _
  rintro fragment u ⟨rfl, bytes, hbytes, rfl⟩
  exact ⟨hb.push bytes (hbytes.length ▸ hs), rfl⟩

theorem emitNamed_ensures (hb : b.Covers backend params nodes) (name : String) {p : Primitive}
    (hp : b.kind p) (hs : b.spare (cost backend p + n) e) :
    (emitNamed backend name p).Ensures e
      (fun fragment u => b.spare n u ∧ fragment.offset = e.buffer.position) b.failure := by
  unfold emitNamed Emit.position fragmentFrom
  simp only [Action.ensures_bind, Action.ensures_view]
  refine (hb.emit hp hs).mono ?_ fun _ _ hf => hf
  exact fun _ u hu => ⟨hu, rfl⟩

/-! ## Leaf passes -/

theorem loopEntry_le {lib : Library} (hlib : lib.WellFormed) (pass : Pass) :
    (lib.leaf pass).loopEntry.getD 0 ≤ (lib.leaf pass).length := by
  have ht := hlib.template _ (List.mem_append_right _ (lib.leaf_mem_leaves pass))
  cases hentry : (lib.leaf pass).loopEntry with
  | none => exact Nat.zero_le _
  | some entry => exact Nat.le_of_lt (ht.loopEntry_lt entry hentry)

/-- The kernel of a pass, after its loop bound is loaded and its loop head aligned. -/
theorem copyPass_ensures (hb : b.Covers backend params nodes) (hlib : backend.kernels.WellFormed)
    (direction : Direction) (step : Step)
    (hs : b.spare ((backend.kernels.leaf step.pass).length + n) e) :
    Action.Ensures (do
        let patches ← step.order.patchValues params.size
        copy direction (backend.kernels.leaf step.pass) patches : Emit σ Fragment) e
      (fun _ u => b.spare n u) b.failure := by
  rw [Action.ensures_bind, Action.ensures_lift]
  refine ⟨fun patches hp => ?_, fun x hx => hb.patches hx e⟩
  have ht := hlib.template _ (List.mem_append_right _ (backend.kernels.leaf_mem_leaves step.pass))
  exact (hb.copy_ensures direction ht (.leaf step.pass step.order hp) hs).mono (fun _ _ h => h.1)
    fun _ _ h => h

theorem alignPass_ensures (hb : b.Covers backend params nodes) (hlib : backend.kernels.WellFormed)
    (direction : Direction) (step : Step)
    (hs : b.spare ((if step.aligned then slack backend else 0) +
      (backend.kernels.leaf step.pass).length + n) e) :
    Action.Ensures (do
        if step.aligned then
          let padding ← backend.align ((backend.kernels.leaf step.pass).loopEntry.getD 0)
          Emit.note (.padded (backend.kernels.leaf step.pass).name padding)
        let patches ← step.order.patchValues params.size
        copy direction (backend.kernels.leaf step.pass) patches : Emit σ Fragment) e
      (fun _ u => b.spare n u) b.failure := by
  by_cases h : step.aligned = true
  · simp only [if_pos h] at hs ⊢
    rw [Nat.add_assoc] at hs
    rw [Action.ensures_bind]
    have hbias := Nat.le_trans (loopEntry_le hlib step.pass)
      (Nat.le_add_right (backend.kernels.leaf step.pass).length n)
    refine (hb.align hbias hs).mono (fun padding u hu => ?_) fun _ _ hf => hf
    exact hb.copyPass_ensures hlib direction step (hb.note _ hu)
  · simp only [if_neg h] at hs ⊢
    rw [Nat.zero_add] at hs
    exact hb.copyPass_ensures hlib direction step hs

theorem emitPass_ensures (hb : b.Covers backend params nodes) (hlib : backend.kernels.WellFormed)
    (direction : Direction) (step : Step) (hs : b.spare (stepCost backend step + n) e) :
    (emitPass backend direction params.size step).Ensures e (fun _ u => b.spare n u) b.failure := by
  have tail := fun (u : Emission σ) hu => @alignPass_ensures σ b backend params nodes n u hb hlib
    direction step hu
  unfold emitPass stepCost at *
  rw [Nat.add_assoc] at hs
  cases hreload : step.reload with
  | none =>
    rw [hreload] at hs
    exact tail e (by simpa using hs)
  | some bound =>
    rw [hreload] at hs
    dsimp only
    rw [Action.ensures_bind]
    refine (hb.emit (hb.load _) (by simpa [cost] using hs)).mono (fun _ u hu => ?_) fun _ _ hf => hf
    exact tail u hu

theorem passes_ensures (hb : b.Covers backend params nodes) (hlib : backend.kernels.WellFormed)
    (direction : Direction) (steps : List Step)
    (hs : b.spare ((steps.map (stepCost backend)).sum + n) e) :
    (steps.mapM (emitPass backend direction params.size)).Ensures e (fun _ u => b.spare n u)
      b.failure := by
  let inv (l : List Step) (u : Emission σ) : Prop :=
    b.spare ((l.map (stepCost backend)).sum + n) u
  refine (Action.ensures_mapM inv ?_ steps e hs).mono (fun _ u hu => ?_) fun _ _ hf => hf
  · intro step l u hu
    simp only [inv, List.map_cons, List.sum_cons, Nat.add_assoc] at hu
    exact hb.emitPass_ensures hlib direction step hu
  · simpa [inv] using hu

/-! ## The call chain -/

theorem cost_glue {p : Primitive} (h : CallChain.IsGlue p) : cost backend p = backend.maxPrimitive := by
  cases p with
  | prologue => exact absurd rfl h.1
  | epilogue => exact absurd rfl h.2
  | _ => rfl

theorem perform_ensures (hb : b.Covers backend params nodes) {items : List CallChain.Item}
    (hkind : ∀ p ∈ CallChain.requests items, b.kind p)
    (hglue : ∀ p ∈ CallChain.requests items, CallChain.IsGlue p)
    (hs : b.spare (backend.maxPrimitive * (CallChain.requests items).length + n) e) :
    (items.forM (CallChain.perform backend)).Ensures e (fun _ u => b.spare n u) b.failure := by
  let inv (l : List CallChain.Item) (u : Emission σ) : Prop :=
    (∀ p ∈ CallChain.requests l, b.kind p ∧ CallChain.IsGlue p) ∧
      b.spare (backend.maxPrimitive * (CallChain.requests l).length + n) u
  refine (Action.ensures_forM inv ?_ items e ⟨fun p hp => ⟨hkind p hp, hglue p hp⟩, hs⟩).mono
    (fun _ u hu => by simpa [CallChain.requests] using hu.2) fun _ _ hf => hf
  rintro item l u ⟨hl, hu⟩
  cases item with
  | note event => exact ⟨hl, hb.note event hu⟩
  | request p =>
    obtain ⟨hp, hg⟩ := hl p List.mem_cons_self
    have hcost : b.spare (cost backend p +
        (backend.maxPrimitive * (CallChain.requests l).length + n)) u := by
      rw [cost_glue hg, ← Nat.add_assoc, Nat.add_comm backend.maxPrimitive, ← Nat.mul_succ]
      exact hu
    refine (hb.emit hp hcost).mono (fun _ t ht => ?_) fun _ _ hf => hf
    exact ⟨fun q hq => hl q (List.mem_cons_of_mem _ hq), ht⟩

theorem chain_ensures (hb : b.Covers backend params nodes) {targets : CallChain.Targets}
    (h4 : b.kind (.call targets.x4)) (h8 : b.kind (.call targets.x8))
    (hs : b.spare (backend.maxPrimitive * (4 * (CallChain.beforeSentinel nodes).length) + n) e) :
    (CallChain.emit backend params targets nodes).Ensures e
      (fun chain u => b.spare n u ∧ (CallChain.script params targets nodes).1 = .ok chain)
      b.failure := by
  obtain ⟨hkind, hfail⟩ := hb.script targets h4 h8
  obtain ⟨hglue, hlen⟩ := CallChain.script_glue params targets nodes
  unfold CallChain.emit
  dsimp only
  rw [Action.ensures_bind]
  have hcost := Nat.add_le_add_right (Nat.mul_le_mul_left backend.maxPrimitive hlen) n
  refine (hb.perform_ensures hkind hglue (hb.mono hcost hs)).mono (fun _ u hu => ?_) fun _ _ hf => hf
  exact Action.ensures_ofExcept.2 ⟨fun _ hchain => ⟨hu, hchain⟩, fun f hf => hfail f hf u⟩

/-! ## The whole routine -/

/-- A budget that covers the pieces covers the routine. -/
theorem emit_ensures (hb : b.Covers backend params nodes) (hlib : backend.kernels.WellFormed)
    (direction : Direction) (schedule : Schedule)
    (hs : b.spare
      (routineCost backend schedule.steps (CallChain.beforeSentinel nodes).length + n) e) :
    (Routine.emit backend params direction schedule nodes).Ensures e
      (fun r u => b.spare n u ∧ r.1.length = u.buffer.position ∧
        ∃ targets, (CallChain.script params targets nodes).1 = .ok r.2) b.failure := by
  have fixed {t : Template} (ht : t ∈ backend.kernels.fixed) {n : Nat} {e : Emission σ}
      (hs : b.spare (t.length + n) e) :=
    hb.copy_ensures direction (hlib.template _ (List.mem_append_left _ ht)) (.fixed ht) hs
  simp only [routineCost, Nat.add_assoc] at hs
  unfold Routine.emit loadBound
  simp only [Action.ensures_bind, Action.ensures_lift, Action.ensures_view]
  -- the base cases, each on a boundary, and their addresses
  refine (hb.align (Nat.zero_le _) hs).mono (fun _ atX4 hAtX4 => ?_) fun _ _ hf => hf
  refine (fixed (by simp [Library.fixed]) hAtX4).mono (fun x4 _ hx4 => ?_) fun _ _ hf => hf
  refine (hb.align (Nat.zero_le _) hx4.1).mono (fun _ atX8 hAtX8 => ?_) fun _ _ hf => hf
  refine (fixed (by simp [Library.fixed]) hAtX8).mono (fun x8 based hx8 => ?_) fun _ _ hf => hf
  obtain ⟨hbased, hx8⟩ := hx8
  rw [hx4.2, hx8]
  refine ⟨fun x4Address hx4Address => ?_, fun x hx => hb.addressOf hAtX4 hbased hx _⟩
  refine ⟨fun x8Address hx8Address => ?_, fun x hx => hb.addressOf hAtX8 hbased hx _⟩
  -- the entry and the leaf passes
  refine (hb.align (Nat.zero_le _) hbased).mono (fun _ atEntry hAtEntry => ?_) fun _ _ hf => hf
  refine (hb.emitNamed_ensures "prologue" hb.prologue hAtEntry).mono (fun prologue _ hentry => ?_)
    fun _ _ hf => hf
  refine (hb.emit (hb.load _) hentry.1).mono (fun _ _ hloaded => ?_) fun _ _ hf => hf
  refine (fixed (by simp [Library.fixed]) hloaded).mono (fun _ _ hinit => ?_) fun _ _ hf => hf
  refine (hb.passes_ensures hlib direction schedule.steps hinit.1).mono (fun _ _ hpasses => ?_)
    fun _ _ hf => hf
  refine (fixed (by simp [Library.fixed]) hpasses).mono (fun _ _ hbridge => ?_) fun _ _ hf => hf
  -- the call chain and the exit
  refine (hb.chain_ensures (hb.call hAtX4 hbased hx4Address) (hb.call hAtX8 hbased hx8Address)
    hbridge.1).mono (fun _ _ hchain => ?_) fun _ _ hf => hf
  refine (hb.emitNamed_ensures "epilogue" hb.epilogue hchain.1).mono (fun _ _ hexit => ?_)
    fun _ _ hf => hf
  rw [hentry.2]
  exact ⟨fun _ _ => ⟨hexit.1, rfl, _, hchain.2⟩, fun x hx => hb.addressOf hAtEntry hbased hx _⟩

end Budget.Covers

end SplitRadix.Routine

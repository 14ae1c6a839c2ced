import SplitRadix.Proofs.CallChain
import SplitRadix.Proofs.Kernels

/-!
# The pieces of a routine

A routine is a list of pieces: parts, which become its fragments, and the glue between them. Writing
a piece is one step, and a routine that is written is a run of such steps. Statements about routines
then go by induction over the run.

* `parts`: the parts of a routine in order.
* `Writing`: a run that writes pieces.
* `written_of_emit`: a routine is written by such runs.
-/

namespace SplitRadix.Leaf.OffsetOrder

/-- The values that go into the fields of a leaf pass. -/
def values (order : OffsetOrder) (n : Nat) : List UInt32 :=
  (order.elements n).map fun element => UInt32.ofNat (4 * element)

theorem eq_values_of_patchValues {order : OffsetOrder} {n : Nat} {patches : List UInt32}
    (h : order.patchValues n = .ok patches) : patches = order.values n := by
  obtain ⟨offsets, hoffsets, h⟩ := exceptBind_eq_ok.1 h
  obtain ⟨_, -, hoffsets⟩ := exceptBind_eq_ok.1 hoffsets
  cases hoffsets
  refine eq_map_of_exceptMapM ?_ h
  intro element value hvalue
  obtain ⟨product, hproduct, hvalue⟩ := exceptBind_eq_ok.1 hvalue
  obtain ⟨rfl, -⟩ := Word.mul_eq_ok.1 hproduct
  cases hvalue
  rfl

end SplitRadix.Leaf.OffsetOrder

namespace SplitRadix.Routine

open Target Kernel Leaf
open Transform (Parameters)

variable {σ : Type}

/-! ## Pieces -/

/-- What a part is made of. -/
inductive Content where
  | kernel (template : Template) (values : List UInt32)    -- a copy with values in its fields
  | primitive (primitive : Primitive)

/-- A part of a routine. -/
structure Part where
  name : String
  content : Content
  boundary : Option Nat    -- which of its bytes goes on a fetch boundary

/-- A kernel without fields. -/
def Part.fixed (template : Template) (boundary : Option Nat) : Part :=
  ⟨template.name, .kernel template [], boundary⟩

/-- A leaf pass. Where its loop head is aligned, the loop head goes on a boundary. -/
def Part.pass (lib : Library) (size : Nat) (step : Step) : Part :=
  { name := (lib.leaf step.pass).name
    content := .kernel (lib.leaf step.pass) (step.order.values size)
    boundary := if step.aligned then some ((lib.leaf step.pass).loopEntry.getD 0) else none }

def Part.prologue : Part := ⟨"prologue", .primitive .prologue, some 0⟩

def Part.epilogue : Part := ⟨"epilogue", .primitive .epilogue, none⟩

/-- The parts of a routine in order. -/
def parts (lib : Library) (size : Nat) (steps : List Step) : List Part :=
  [.fixed lib.x4 (some 0), .fixed lib.x8 (some 0), .prologue, .fixed lib.leafInit none] ++
    steps.map (.pass lib size) ++ [.fixed lib.bridge none, .epilogue]

inductive Piece where
  | part (part : Part)
  | glue (primitive : Primitive)

def Piece.part? : Piece → Option Part
  | part p => some p
  | glue _ => none

def baseCases (lib : Library) : List Piece :=
  [.part (.fixed lib.x4 (some 0)), .part (.fixed lib.x8 (some 0))]

def Piece.loadBound (bound : Nat) : Piece := .glue (.load .loopCounter (UInt32.ofNat bound))

def passPieces (lib : Library) (size : Nat) (step : Step) : List Piece :=
  (step.reload.map Piece.loadBound).toList ++ [.part (.pass lib size step)]

/-- From the prologue to the end of the call chain, which asks for `requests`. -/
def body (lib : Library) (size : Nat) (schedule : Schedule) (requests : List Primitive) :
    List Piece :=
  [.part .prologue, .loadBound schedule.initial, .part (.fixed lib.leafInit none)] ++
    schedule.steps.flatMap (passPieces lib size) ++ [.part (.fixed lib.bridge none)] ++
    requests.map .glue

theorem filterMap_part_passPieces (lib : Library) (size : Nat) (steps : List Step) :
    (steps.flatMap (passPieces lib size)).filterMap Piece.part? = steps.map (.pass lib size) := by
  induction steps with
  | nil => rfl
  | cons step rest ih =>
    rw [List.flatMap_cons, List.filterMap_append, ih, List.map_cons]
    unfold passPieces
    cases step.reload <;> rfl

theorem filterMap_part_glue (requests : List Primitive) :
    (requests.map Piece.glue).filterMap Piece.part? = [] := by
  simp [Piece.part?]

/-- The pieces hold the parts in order. -/
theorem filterMap_part_pieces (lib : Library) (size : Nat) (schedule : Schedule)
    (requests : List Primitive) :
    (baseCases lib ++ body lib size schedule requests ++ [Piece.part .epilogue]).filterMap
      Piece.part? = parts lib size schedule.steps := by
  simp only [body, List.filterMap_append, filterMap_part_passPieces, filterMap_part_glue, parts,
    List.append_assoc]
  rfl

/-! ## Runs -/

/-- Nothing but events has been noted in between. -/
structure Noted (e t : Emission σ) : Prop where
  buffer : t.buffer = e.buffer
  own : t.own = e.own

theorem Noted.refl (e : Emission σ) : Noted e e := ⟨rfl, rfl⟩

theorem Noted.trans {e t u : Emission σ} (h : Noted e t) (h' : Noted t u) : Noted e u :=
  ⟨h'.buffer.trans h.buffer, h'.own.trans h.own⟩

/-- The cursor is put where a part starts. -/
inductive Aligned (backend : Backend σ) : Option Nat → Emission σ → Emission σ → Prop where
  | free {e t : Emission σ} (h : Noted e t) : Aligned backend none e t
  | padded {bias padding : Nat} {e before after t : Emission σ} (hbefore : Noted e before)
    (h : (backend.align bias).result before = (.ok padding, after)) (hafter : Noted after t) :
    Aligned backend (some bias) e t

/-- The content of a part is written at the cursor. -/
inductive Filled (backend : Backend σ) (direction : Direction) :
    Content → Emission σ → Emission σ → Prop where
  | kernel {template : Template} {values : List UInt32} {bytes : Bytes} (e : Emission σ)
    (ht : template.WellFormed) (h : template.Specialised direction values bytes) :
    Filled backend direction (.kernel template values) e { e with buffer := e.buffer.push bytes }
  | primitive {p : Primitive} {e t : Emission σ} (h : (backend.emit p).result e = (.ok (), t)) :
    Filled backend direction (.primitive p) e t

/-- A run that writes pieces one after the other and gives the fragments of the parts among them. -/
inductive Writing (backend : Backend σ) (direction : Direction) :
    List Piece → Emission σ → List Fragment → Emission σ → Prop where
  | done {e u : Emission σ} (h : Noted e u) : Writing backend direction [] e [] u
  | glue {pieces : List Piece} {fragments : List Fragment} {p : Primitive}
    {e before t u : Emission σ} (hbefore : Noted e before)
    (hglue : (backend.emit p).result before = (.ok (), t))
    (h : Writing backend direction pieces t fragments u) :
    Writing backend direction (.glue p :: pieces) e fragments u
  | part {pieces : List Piece} {fragments : List Fragment} {p : Part} {e start stop u : Emission σ}
    (haligned : Aligned backend p.boundary e start)
    (hfilled : Filled backend direction p.content start stop)
    (h : Writing backend direction pieces stop fragments u) :
    Writing backend direction (.part p :: pieces) e
      (⟨p.name, start.buffer.position, stop.buffer.position - start.buffer.position⟩ :: fragments) u

variable {backend : Backend σ} {direction : Direction} {e t u : Emission σ}

theorem Aligned.noted {boundary : Option Nat} (hnoted : Noted e t)
    (h : Aligned backend boundary t u) : Aligned backend boundary e u := by
  cases h with
  | free h => exact .free (hnoted.trans h)
  | padded hbefore h hafter => exact .padded (hnoted.trans hbefore) h hafter

namespace Writing

theorem noted {pieces : List Piece} {fragments : List Fragment} (hnoted : Noted e t)
    (h : Writing backend direction pieces t fragments u) :
    Writing backend direction pieces e fragments u := by
  cases h with
  | done h => exact .done (hnoted.trans h)
  | glue hbefore hglue h => exact .glue (hnoted.trans hbefore) hglue h
  | part haligned hfilled h => exact .part (haligned.noted hnoted) hfilled h

theorem append {first second : List Piece} {fs gs : List Fragment}
    (h : Writing backend direction first e fs t) (h' : Writing backend direction second t gs u) :
    Writing backend direction (first ++ second) e (fs ++ gs) u := by
  induction h with
  | done h => exact h'.noted h
  | glue hbefore hglue _ ih => exact .glue hbefore hglue (ih h')
  | part haligned hfilled _ ih => exact .part haligned hfilled (ih h')

end Writing

/-! ## Writing a routine -/

variable {params : Parameters} {schedule : Schedule} {nodes : List Node}

/-- A copy of a kernel is a part of its own. -/
theorem writing_of_copy {template : Template} (ht : template.WellFormed) {values : List UInt32}
    {boundary : Option Nat} {fragment : Fragment} (haligned : Aligned backend boundary e t)
    (h : (copy direction template values).result t = (.ok fragment, u)) :
    Writing backend direction [.part ⟨template.name, .kernel template values, boundary⟩] e
      [fragment] u := by
  obtain ⟨rfl, bytes, hbytes, rfl⟩ := (copy_ensures direction ht values t).of_ok h
  have hlength : template.length = t.buffer.position + bytes.length - t.buffer.position := by
    rw [Nat.add_sub_cancel_left, hbytes.length]
  rw [hlength]
  exact Writing.part (p := ⟨template.name, .kernel template values, boundary⟩) haligned
    (.kernel t ht hbytes) (.done (.refl _))

theorem emitNamed_eq_ok {name : String} {p : Primitive} {fragment : Fragment}
    (h : (emitNamed backend name p).result e = (.ok fragment, u)) :
    (backend.emit p).result e = (.ok (), u) ∧
      fragment = ⟨name, e.buffer.position, u.buffer.position - e.buffer.position⟩ := by
  obtain ⟨_, _, hstart, h⟩ := Action.result_bind_eq_ok.1 h
  cases hstart
  obtain ⟨⟨⟩, stop, hemit, h⟩ := Action.result_bind_eq_ok.1 h
  cases h
  exact ⟨hemit, rfl⟩

theorem writing_of_emitPass (hlib : backend.kernels.WellFormed) {size : Nat} {step : Step}
    {fragment : Fragment} (h : (emitPass backend direction size step).result e = (.ok fragment, u)) :
    Writing backend direction (passPieces backend.kernels size step) e [fragment] u := by
  have ht := hlib.template _ (List.mem_append_right _ (backend.kernels.leaf_mem_leaves step.pass))
  -- the kernel, once the cursor is where it starts
  have hcopy : ∀ {e t : Emission σ}, Aligned backend (Part.pass backend.kernels size step).boundary
      e t → (do
        let patches ← step.order.patchValues size
        copy direction (backend.kernels.leaf step.pass) patches : Emit σ Fragment).result t =
          (.ok fragment, u) →
      Writing backend direction [.part (.pass backend.kernels size step)] e [fragment] u := by
    intro e t haligned h
    obtain ⟨patches, _, hlift, h⟩ := Action.result_bind_eq_ok.1 h
    obtain ⟨hpatches, rfl⟩ := Action.result_lift_eq_ok.1 hlift
    rw [OffsetOrder.eq_values_of_patchValues hpatches] at h
    exact writing_of_copy ht haligned h
  have halign : ∀ {e : Emission σ}, (do
        if step.aligned then
          let padding ← backend.align ((backend.kernels.leaf step.pass).loopEntry.getD 0)
          Emit.note (.padded (backend.kernels.leaf step.pass).name padding)
        let patches ← step.order.patchValues size
        copy direction (backend.kernels.leaf step.pass) patches : Emit σ Fragment).result e =
          (.ok fragment, u) →
      Writing backend direction [.part (.pass backend.kernels size step)] e [fragment] u := by
    intro e h
    by_cases hstep : step.aligned = true
    · have hboundary : (Part.pass backend.kernels size step).boundary =
          some ((backend.kernels.leaf step.pass).loopEntry.getD 0) := if_pos hstep
      rw [if_pos hstep] at h
      obtain ⟨padding, t, hpadded, h⟩ := Action.result_bind_eq_ok.1 h
      obtain ⟨⟨⟩, _, hnoted, h⟩ := Action.result_bind_eq_ok.1 h
      cases hnoted
      exact hcopy (hboundary ▸ .padded (.refl e) hpadded ⟨rfl, rfl⟩) h
    · have hboundary : (Part.pass backend.kernels size step).boundary = none := if_neg hstep
      rw [if_neg hstep] at h
      exact hcopy (hboundary ▸ .free (.refl e)) h
  unfold passPieces
  unfold emitPass at h
  cases hreload : step.reload with
  | none =>
    rw [hreload] at h
    exact halign h
  | some bound =>
    rw [hreload] at h
    obtain ⟨⟨⟩, t, hload, h⟩ := Action.result_bind_eq_ok.1 h
    exact .glue (.refl e) hload (halign h)

theorem writing_of_passes (hlib : backend.kernels.WellFormed) {size : Nat} {steps : List Step}
    {fragments : List Fragment}
    (h : (steps.mapM (emitPass backend direction size)).result e = (.ok fragments, u)) :
    Writing backend direction (steps.flatMap (passPieces backend.kernels size)) e fragments u := by
  induction steps generalizing e fragments with
  | nil => cases h; exact .done (.refl _)
  | cons step rest ih =>
    rw [List.mapM_cons] at h
    obtain ⟨first, t, hfirst, h⟩ := Action.result_bind_eq_ok.1 h
    obtain ⟨others, v, hothers, h⟩ := Action.result_bind_eq_ok.1 h
    cases h
    exact (writing_of_emitPass hlib hfirst).append (ih hothers)

theorem writing_of_perform {items : List CallChain.Item}
    (h : (items.forM (CallChain.perform backend)).result e = (.ok (), u)) :
    Writing backend direction ((CallChain.requests items).map .glue) e [] u := by
  induction items generalizing e with
  | nil => cases h; exact .done (.refl _)
  | cons item rest ih =>
    obtain ⟨⟨⟩, t, hitem, hrest⟩ := Action.result_bind_eq_ok.1 h
    cases item with
    | note event =>
      cases hitem
      have hnoted : Noted e { e with events := e.events.push event } := ⟨rfl, rfl⟩
      exact .noted hnoted (ih hrest)
    | request p => exact .glue (.refl e) hitem (ih hrest)

theorem writing_of_chain (direction : Direction) {targets : CallChain.Targets}
    {chain : CallChain.Summary}
    (h : (CallChain.emit backend params targets nodes).result e = (.ok chain, u)) :
    (CallChain.script params targets nodes).1 = .ok chain ∧
      Writing backend direction
        ((CallChain.requests (CallChain.script params targets nodes).2.toList).map .glue) e []
        u := by
  obtain ⟨⟨⟩, t, hperform, hresult⟩ := Action.result_bind_eq_ok.1 h
  obtain ⟨hchain, rfl⟩ := Action.result_ofExcept_eq_ok.1 hresult
  exact ⟨hchain, writing_of_perform hperform⟩

/-- A routine was written: its base cases, whose addresses are the targets of its calls, then all up
to the end of its call chain, and last the epilogue. -/
inductive Written (backend : Backend σ) (params : Parameters) (direction : Direction)
    (schedule : Schedule) (nodes : List Node) (e : Emission σ) :
    Routine × CallChain.Summary → Emission σ → Prop where
  | intro {x4 x8 prologue : Fragment} {rest : List Fragment} {targets : CallChain.Targets}
    {entryAddress : Nat} {chain : CallChain.Summary} {based exit u : Emission σ}
    (hbased : Writing backend direction (baseCases backend.kernels) e [x4, x8] based)
    (hx4 : based.buffer.addressOf x4.offset = .ok targets.x4)
    (hx8 : based.buffer.addressOf x8.offset = .ok targets.x8)
    (hchain : (CallChain.script params targets nodes).1 = .ok chain)
    (hbody : Writing backend direction (body backend.kernels params.size schedule
      (CallChain.requests (CallChain.script params targets nodes).2.toList)) based
      (prologue :: rest) exit)
    (hexit : (backend.emit .epilogue).result exit = (.ok (), u))
    (hentry : based.buffer.addressOf prologue.offset = .ok entryAddress) :
    Written backend params direction schedule nodes e
      ({ size := params.size
         direction
         entryOffset := prologue.offset
         entryAddress
         length := u.buffer.position
         x4Offset := x4.offset
         x8Offset := x8.offset
         callSites := chain.callSites
         signMask := backend.signMask direction
         fragments := [x4, x8] ++ prologue :: rest ++
           [⟨"epilogue", exit.buffer.position, u.buffer.position - exit.buffer.position⟩] },
        chain) u

theorem writing_of_exit (h : (backend.emit .epilogue).result e = (.ok (), u)) :
    Writing backend direction [.part .epilogue] e
      [⟨"epilogue", e.buffer.position, u.buffer.position - e.buffer.position⟩] u :=
  .part (.free (.refl e)) (.primitive h) (.done (.refl u))

/-- The whole routine as one run. -/
theorem Written.writing {r : Routine × CallChain.Summary}
    (h : Written backend params direction schedule nodes e r u) :
    ∃ requests, Writing backend direction (baseCases backend.kernels ++
      body backend.kernels params.size schedule requests ++ [.part .epilogue]) e r.1.fragments
      u := by
  obtain ⟨hbased, -, -, -, hbody, hexit, -⟩ := h
  exact ⟨_, (hbased.append hbody).append (writing_of_exit hexit)⟩

/-- A routine is written piece by piece. -/
theorem written_of_emit (hlib : backend.kernels.WellFormed) {r : Routine × CallChain.Summary}
    (h : (Routine.emit backend params direction schedule nodes).result e = (.ok r, u)) :
    Written backend params direction schedule nodes e r u := by
  have fixed {t : Template} (ht : t ∈ backend.kernels.fixed) :=
    hlib.template _ (List.mem_append_left backend.kernels.leaves ht)
  unfold Routine.emit at h
  obtain ⟨_, atX4, halign, h⟩ := Action.result_bind_eq_ok.1 h
  obtain ⟨x4, afterX4, hcopy, h⟩ := Action.result_bind_eq_ok.1 h
  have hx4 := writing_of_copy (fixed (by simp [Library.fixed]))
    (.padded (.refl _) halign (.refl _)) hcopy
  obtain ⟨_, atX8, halign, h⟩ := Action.result_bind_eq_ok.1 h
  obtain ⟨x8, based, hcopy, h⟩ := Action.result_bind_eq_ok.1 h
  have hx8 := writing_of_copy (fixed (by simp [Library.fixed]))
    (.padded (.refl _) halign (.refl _)) hcopy
  obtain ⟨_, _, hview, h⟩ := Action.result_bind_eq_ok.1 h
  cases hview
  obtain ⟨x4Address, _, haddress, h⟩ := Action.result_bind_eq_ok.1 h
  obtain ⟨hx4Address, rfl⟩ := Action.result_lift_eq_ok.1 haddress
  obtain ⟨x8Address, _, haddress, h⟩ := Action.result_bind_eq_ok.1 h
  obtain ⟨hx8Address, rfl⟩ := Action.result_lift_eq_ok.1 haddress
  obtain ⟨_, atEntry, halign, h⟩ := Action.result_bind_eq_ok.1 h
  obtain ⟨prologue, afterEntry, hnamed, h⟩ := Action.result_bind_eq_ok.1 h
  obtain ⟨hemit, rfl⟩ := emitNamed_eq_ok hnamed
  have hprologue : Writing backend direction [.part .prologue] based _ afterEntry :=
    .part (.padded (.refl _) halign (.refl _)) (.primitive hemit) (.done (.refl _))
  obtain ⟨⟨⟩, loaded, hload, h⟩ := Action.result_bind_eq_ok.1 h
  obtain ⟨leafInit, afterInit, hcopy, h⟩ := Action.result_bind_eq_ok.1 h
  have hinit : Writing backend direction [.part (.fixed backend.kernels.leafInit none)] loaded _ _ :=
    writing_of_copy (fixed (by simp [Library.fixed])) (.free (.refl loaded)) hcopy
  obtain ⟨passes, afterPasses, hpasses, h⟩ := Action.result_bind_eq_ok.1 h
  have hpasses := writing_of_passes hlib hpasses
  obtain ⟨bridge, afterBridge, hcopy, h⟩ := Action.result_bind_eq_ok.1 h
  have hbridge : Writing backend direction [.part (.fixed backend.kernels.bridge none)] _ _ _ :=
    writing_of_copy (fixed (by simp [Library.fixed])) (.free (.refl afterPasses)) hcopy
  obtain ⟨chain, exit, hemit, h⟩ := Action.result_bind_eq_ok.1 h
  obtain ⟨hchain, hrequests⟩ := writing_of_chain direction hemit
  obtain ⟨epilogue, _, hnamed, h⟩ := Action.result_bind_eq_ok.1 h
  obtain ⟨hexit, rfl⟩ := emitNamed_eq_ok hnamed
  obtain ⟨entryAddress, _, haddress, h⟩ := Action.result_bind_eq_ok.1 h
  obtain ⟨hentry, rfl⟩ := Action.result_lift_eq_ok.1 haddress
  cases h
  have hpassed := (hprologue.append (.glue (.refl _) hload hinit)).append hpasses
  have hbody := (hpassed.append hbridge).append hrequests
  have hfragments : ∀ prologue epilogue : Fragment,
      [x4, x8, prologue, leafInit] ++ passes ++ [bridge, epilogue] =
        [x4, x8] ++ prologue :: ([leafInit] ++ passes ++ [bridge] ++ []) ++ [epilogue] := by
    simp
  rw [hfragments]
  exact .intro (hx4.append hx8) hx4Address hx8Address hchain hbody hexit hentry

end SplitRadix.Routine

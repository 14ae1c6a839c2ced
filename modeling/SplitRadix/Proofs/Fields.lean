import SplitRadix.Proofs.Layout
import SplitRadix.Proofs.Rejection

/-!
# The fields of the leaf passes

A library that was found valid when its generator was made never fails a generation later: every
kernel takes the values that go into it. In the leaf passes of a routine the fields then hold four
times the offsets of their order, one for each of the first eight multiples of the size. They do so in
the finished routine too, if no later request of the target changes a copied leaf pass.

* `Template.fieldsIn`: the fields of a copy, read as numbers.
* `perm_multiples`: the offsets of an order.
* `not_template_of_generate`: no generation fails for a kernel.
* `emitPass_holds`: what the fields of a leaf pass hold once it is written.
* `Keeps`, `Writing.spared`: a fragment that every later request spares stays as it was written.
* `leaf_fields_hold_offsets`: what the fields hold in the end.
* `blanking_epilogue_spoils_fields`: what a target that edits a copied leaf pass does to them.
-/

namespace SplitRadix.Kernel.Template

variable {t : Template}

/-- The fields of a copy of the template from `start` on, read as numbers. -/
def fieldsIn (t : Template) (code : Bytes) (start : Nat) : List Nat :=
  t.sites.map fun site =>
    Bytes.ofLittleEndian (Bytes.slice code (start + site.offset) PatchSite.width)

/-- The fields of a template lie inside its copy. -/
theorem fieldsIn_slice (ht : t.WellFormed) (code : Bytes) (start : Nat) :
    t.fieldsIn (Bytes.slice code start t.length) 0 = t.fieldsIn code start := by
  refine List.map_congr_left fun site hsite => ?_
  rw [Nat.zero_add, Bytes.slice_slice code (ht.sites_le site hsite).1]

/-- A field reads as the value that was put into it. -/
theorem Specialised.fieldsIn {direction : Direction} {values : List UInt32} {copy : Bytes}
    (h : t.Specialised direction values copy) : t.fieldsIn copy 0 = values.map UInt32.toNat := by
  have hcount : t.sites.length = values.length := h.accepts.1.symm
  have hfirst : (t.sites.zip values).map Prod.fst = t.sites :=
    List.map_fst_zip (Nat.le_of_eq hcount)
  have hsecond : (t.sites.zip values).map Prod.snd = values :=
    List.map_snd_zip (Nat.le_of_eq hcount.symm)
  have hread : ∀ p ∈ t.sites.zip values,
      Bytes.ofLittleEndian (Bytes.slice copy (0 + p.1.offset) PatchSite.width) = p.2.toNat := by
    intro p hp
    rw [Nat.zero_add]
    exact Holds.read h.field hp
  calc t.fieldsIn copy 0
      = ((t.sites.zip values).map Prod.fst).map fun site =>
          Bytes.ofLittleEndian (Bytes.slice copy (0 + site.offset) PatchSite.width) := by
        rw [hfirst]
        rfl
    _ = (t.sites.zip values).map fun p => p.2.toNat := by
        rw [List.map_map]
        exact List.map_congr_left hread
    _ = ((t.sites.zip values).map Prod.snd).map UInt32.toNat := by
        rw [List.map_map]
        rfl
    _ = values.map UInt32.toNat := by rw [hsecond]

end SplitRadix.Kernel.Template

namespace SplitRadix.Leaf.OffsetOrder

variable {n : Nat}

/-- What goes into the fields of a leaf pass, as numbers. -/
def multiples (order : OffsetOrder) (n : Nat) : List Nat := (order.elements n).map (4 * ·)

theorem multiples_lt (order : OffsetOrder) (h : n ≤ 2 ^ 26) :
    ∀ value ∈ order.multiples n, value < 2 ^ 31 := by
  intro value hvalue
  obtain ⟨element, helement, rfl⟩ := List.mem_map.1 hvalue
  have := four_mul_elements_le helement
  omega

/-- Up to 2^26 elements, nothing is cut off. -/
theorem toNat_values (order : OffsetOrder) (h : n ≤ 2 ^ 26) :
    (order.values n).map UInt32.toNat = order.multiples n := by
  rw [values, List.map_map]
  refine List.map_congr_left fun element helement => ?_
  have := four_mul_elements_le helement
  rw [Function.comp_apply, UInt32.toNat_ofNat']
  omega

/-- The offsets of a transform whose size is a multiple of four are those of four elements,
enlarged. -/
theorem multiples_eq (order : OffsetOrder) (h : 4 ∣ n) :
    order.multiples n = (order.elements 4).map (· * n) := by
  obtain ⟨m, rfl⟩ := h
  unfold multiples
  cases order <;>
    simp only [elements, List.map_cons, List.map_nil, List.cons.injEq, and_true, true_and] <;> omega

/-- Every order names each of the first eight multiples of the size once. -/
theorem perm_multiples (order : OffsetOrder) (h : 4 ∣ n) :
    (order.multiples n).Perm ((List.range 8).map (· * n)) := by
  rw [order.multiples_eq h]
  refine List.Perm.map _ ?_
  cases order <;> decide

end SplitRadix.Leaf.OffsetOrder

namespace SplitRadix

/-- The bytes of the fragment. -/
def Fragment.Covers (fragment : Fragment) (i : Nat) : Prop :=
  fragment.offset ≤ i ∧ i < fragment.offset + fragment.length

namespace Routine

open Target Kernel Leaf

variable {σ : Type} {backend : Backend σ} {direction : Direction} {size : Nat} {step : Step}
variable {fragment : Fragment} {e u : Emission σ}

/-- The fragment is a copy of the kernel of a leaf pass, and its fields hold the offsets of the
step. -/
structure HoldsOffsets (lib : Library) (size : Nat) (code : Bytes) (step : Step)
    (fragment : Fragment) : Prop where
  name : fragment.name = (lib.leaf step.pass).name
  length : fragment.length = (lib.leaf step.pass).length
  inside : fragment.offset + fragment.length ≤ code.length
  fields : (lib.leaf step.pass).fieldsIn code fragment.offset = step.order.multiples size

theorem holds_of_lies {lib : Library} (hlib : lib.WellFormed) (hsize : size ≤ 2 ^ 26)
    {grid base : Nat} {code : Bytes}
    (h : (Part.pass lib size step).Lies direction grid base code fragment) :
    HoldsOffsets lib size code step fragment := by
  have ht := hlib.template _ (List.mem_append_right _ (lib.leaf_mem_leaves step.pass))
  obtain ⟨hlength, hcopy⟩ := h.kernel _ _ rfl
  refine ⟨h.name, hlength, h.inside, ?_⟩
  rw [← Template.fieldsIn_slice ht, ← hlength, hcopy.fieldsIn, step.order.toNat_values hsize]

/-- A copy of a kernel lies where it was written, whatever the target did before. -/
theorem lies_of_kernel {part : Part} {template : Template} {values : List UInt32}
    (hcontent : part.content = .kernel template values)
    (h : Writing backend direction [.part part] e [fragment] u) :
    part.Lies direction 1 u.buffer.base u.buffer.written fragment := by
  cases h with
  | part haligned hfilled hrest =>
    cases hrest with
    | done hnoted =>
      rw [hcontent] at hfilled
      rw [hnoted.buffer]
      cases hfilled with
      | kernel start ht hcopy =>
        refine Filled.lies rfl (fun other patches hother => ?_) fun _ _ => Nat.one_dvd _
        rw [hcontent] at hother
        cases hother
        exact hcopy

/-- The fields of a leaf pass hold its offsets once it is written. -/
theorem emitPass_holds (hlib : backend.kernels.WellFormed) (hsize : size ≤ 2 ^ 26)
    (h : (emitPass backend direction size step).result e = (.ok fragment, u)) :
    HoldsOffsets backend.kernels size u.buffer.written step fragment := by
  have hwriting := writing_of_emitPass hlib h
  unfold passPieces at hwriting
  cases hreload : step.reload with
  | none =>
    rw [hreload] at hwriting
    exact holds_of_lies hlib hsize (lies_of_kernel rfl hwriting)
  | some bound =>
    rw [hreload] at hwriting
    cases hwriting with
    | glue _ _ hpass => exact holds_of_lies hlib hsize (lies_of_kernel rfl hpass)

/-! ## What later requests spare -/

/-- A copy of a kernel stays where it is when its bytes do. -/
theorem Part.Lies.of_same {part : Part} {grid base : Nat} {code other : Bytes}
    (h : part.Lies direction grid base code fragment) (hpos : 0 < fragment.length)
    (hsame : ∀ i, fragment.Covers i → other[i]? = code[i]?) :
    part.Lies direction grid base other fragment where
  name := h.name
  inside := by
    have hinside := h.inside
    have hlast : fragment.offset + fragment.length - 1 < code.length := by omega
    have hkept := hsame (fragment.offset + fragment.length - 1) ⟨by omega, by omega⟩
    rw [List.getElem?_eq_getElem hlast] at hkept
    have := (List.getElem?_eq_some_iff.1 hkept).1
    omega
  kernel template values hcontent := by
    have hslice : Bytes.slice other fragment.offset fragment.length =
        Bytes.slice code fragment.offset fragment.length := by
      refine List.ext_getElem? fun j => ?_
      simp only [Bytes.slice, List.getElem?_take, List.getElem?_drop]
      by_cases hj : j < fragment.length
      · rw [if_pos hj, if_pos hj, hsame _ ⟨by omega, by omega⟩]
      · rw [if_neg hj, if_neg hj]
    rw [hslice]
    exact h.kernel template values hcontent
  boundary := h.boundary

section Observed

variable {e t u : Emission (Observed σ)}

/-- The log has grown by requests that were carried out, and the bytes that all of them left alone
are what they were. -/
def Keeps (backend : Backend σ) (e u : Emission (Observed σ)) : Prop :=
  ∃ more, u.own.log = e.own.log ++ more ∧ (∀ o ∈ more, backend.Performs o) ∧
    ∀ kept : Nat → Prop, (∀ o ∈ more, o.Spares kept) →
      ∀ i < e.buffer.position, kept i → u.buffer.written[i]? = e.buffer.written[i]?

namespace Keeps

theorem trans (h : Keeps backend e t) (h' : Keeps backend t u) : Keeps backend e u := by
  obtain ⟨first, hfirst, hperforms, hkeeps⟩ := h
  obtain ⟨second, hsecond, hperforms', hkeeps'⟩ := h'
  refine ⟨first ++ second, by rw [hsecond, hfirst, List.append_assoc],
    List.forall_mem_append.2 ⟨hperforms, hperforms'⟩, fun kept hspares i hi hk => ?_⟩
  have hmiddle := hkeeps kept (fun o ho => hspares o (List.mem_append_left _ ho)) i hi hk
  -- a byte that was kept is there, so the cursor is still behind it
  have hlt : i < t.buffer.position := by
    rw [← Code.Buffer.length_written] at hi ⊢
    rw [List.getElem?_eq_getElem hi] at hmiddle
    exact (List.getElem?_eq_some_iff.1 hmiddle).1
  exact (hkeeps' kept (fun o ho => hspares o (List.mem_append_right _ ho)) i hlt hk).trans hmiddle

theorem of_noted (h : Noted e u) : Keeps backend e u :=
  ⟨[], by rw [h.own, List.append_nil], List.forall_mem_nil _,
    fun _ _ _ _ _ => by rw [h.buffer]⟩

theorem push (e : Emission (Observed σ)) (bytes : Bytes) :
    Keeps backend e { e with buffer := e.buffer.push bytes } := by
  refine ⟨[], (List.append_nil _).symm, List.forall_mem_nil _, fun _ _ i hi _ => ?_⟩
  rw [Code.Buffer.written_push, List.getElem?_append_left (by rwa [Code.Buffer.length_written])]

theorem emit {p : Primitive} (h : (backend.observed.emit p).result e = (.ok (), u)) :
    Keeps backend e u := by
  obtain ⟨hlog, hperformed⟩ := Emit.observe_eq h
  exact ⟨_, hlog, List.forall_mem_singleton.2 (.primitive hperformed),
    fun _ hspares => hspares _ List.mem_cons_self⟩

theorem align {bias padding : Nat}
    (h : (backend.observed.align bias).result e = (.ok padding, u)) : Keeps backend e u := by
  obtain ⟨hlog, hperformed⟩ := Emit.observe_eq h
  exact ⟨_, hlog, List.forall_mem_singleton.2 (.alignment hperformed),
    fun _ hspares => hspares _ List.mem_cons_self⟩

end Keeps

theorem Aligned.keeps {boundary : Option Nat} (h : Aligned backend.observed boundary e u) :
    Keeps backend e u := by
  cases h with
  | free h => exact .of_noted h
  | padded hbefore h hafter =>
    exact (Keeps.of_noted hbefore).trans ((Keeps.align h).trans (.of_noted hafter))

theorem Filled.keeps {content : Content} (h : Filled backend.observed direction content e u) :
    Keeps backend e u := by
  cases h with
  | kernel _ _ _ => exact .push e _
  | primitive h => exact .emit h

theorem Writing.keeps {pieces : List Piece} {fragments : List Fragment}
    (h : Writing backend.observed direction pieces e fragments u) : Keeps backend e u := by
  induction h with
  | done h => exact .of_noted h
  | glue hbefore hglue _ ih => exact (Keeps.of_noted hbefore).trans ((Keeps.emit hglue).trans ih)
  | part haligned hfilled _ ih => exact haligned.keeps.trans (hfilled.keeps.trans ih)

/-- A copy of a kernel that all requests leave alone lies where it was written in the end. -/
theorem Writing.spared {pieces : List Piece} {fragments : List Fragment}
    (h : Writing backend.observed direction pieces e fragments u) :
    List.Forall₂ (fun part fragment => ∀ template values,
        part.content = .kernel template values → 0 < template.length →
        (∀ o ∈ u.own.log, o.Spares fragment.Covers) →
        part.Lies direction 1 u.buffer.base u.buffer.written fragment)
      (pieces.filterMap Piece.part?) fragments := by
  induction h with
  | done _ => exact .nil
  | glue _ _ _ ih => exact ih
  | @part _ _ part e start stop u haligned hfilled hrest ih =>
    refine .cons (fun template values hcontent hpos hspares => ?_) ih
    have hlies : part.Lies direction 1 u.buffer.base stop.buffer.written
        ⟨part.name, start.buffer.position, stop.buffer.position - start.buffer.position⟩ := by
      have hwriting : Writing backend.observed direction [.part part] e _ stop :=
        .part haligned hfilled (.done (.refl stop))
      exact { lies_of_kernel hcontent hwriting with boundary := fun _ _ => Nat.one_dvd _ }
    obtain ⟨more, hlog, -, hkeeps⟩ := hrest.keeps
    refine hlies.of_same ((hlies.kernel _ _ hcontent).1 ▸ hpos) fun i hi => ?_
    refine hkeeps _ (fun o ho => hspares o (hlog ▸ List.mem_append_right _ ho)) i ?_ hi
    have hinside := hlies.inside
    rw [Code.Buffer.length_written] at hinside
    exact Nat.lt_of_lt_of_le hi.2 hinside

/-- The leaf passes that all requests leave alone keep what their fields hold. -/
theorem Written.holds {params : Transform.Parameters} {schedule : Schedule} {nodes : List Node}
    {r : Routine × CallChain.Summary} (hlib : backend.kernels.WellFormed)
    (hpos : ∀ pass, 0 < (backend.kernels.leaf pass).length) (hsize : params.size ≤ 2 ^ 26)
    (h : Written backend.observed params direction schedule nodes e r u) (more : Bytes) :
    r.1.fragments.length = schedule.steps.length + 6 ∧
      List.Forall₂ (fun step fragment => (∀ o ∈ u.own.log, o.Spares fragment.Covers) →
          HoldsOffsets backend.kernels params.size (u.buffer.written ++ more) step fragment)
        schedule.steps ((r.1.fragments.drop 4).take schedule.steps.length) := by
  obtain ⟨requests, hwriting⟩ := h.writing
  have hlies := hwriting.spared
  rw [filterMap_part_pieces] at hlies
  have hcount := hlies.length_eq
  rw [length_parts] at hcount
  have hpasses : ((parts backend.kernels params.size schedule.steps).drop 4).take
      schedule.steps.length = schedule.steps.map (Part.pass backend.kernels params.size) := by
    simp [parts]
  have hkept := List.forall₂_take schedule.steps.length (List.forall₂_drop 4 hlies)
  rw [show backend.observed.kernels = backend.kernels from rfl, hpasses,
    List.forall₂_map_left_iff] at hkept
  refine ⟨hcount.symm, hkept.imp fun step fragment hpass hspares => ?_⟩
  exact holds_of_lies hlib hsize ((hpass _ _ rfl (hpos step.pass) hspares).append more)

end Observed

end Routine

end SplitRadix

namespace SplitRadix.Target

variable {σ : Type}

/-- A target that only appends spares all that was written. -/
theorem Backend.OnlyAppends.spares {backend : Backend σ} (happends : backend.OnlyAppends)
    {o : Observation} (ho : backend.Performs o) (kept : Nat → Prop) : o.Spares kept := by
  intro i hi _
  have hpushed : ∃ bytes, o.after = o.before.push bytes := by
    cases ho with
    | primitive h => exact (happends.emit _ _).of_ok h
    | alignment h => exact (happends.align _ _).of_ok h
  obtain ⟨bytes, hafter⟩ := hpushed
  rw [hafter, Code.Buffer.written_push,
    List.getElem?_append_left (by rwa [Code.Buffer.length_written])]

/-- The same target, except that its epilogue zeroes all that was written before. -/
def Backend.blanking (backend : Backend σ) : Backend σ :=
  { backend with
    emit := fun
      | .epilogue => do
        let length ← Emit.position
        Emit.onBuffer .buffer (Code.Buffer.edit 0 length (modify fun code => code.map fun _ => 0))
        backend.emit .epilogue
      | primitive => backend.emit primitive }

end SplitRadix.Target

namespace SplitRadix.Machine

open Target

/-- It reports no other errors than the x86-64 target. -/
theorem blanking_not_reports {cause : GenerateError} (hcause : cause.isOfTarget = false) :
    ¬ backend.blanking.Reports (.error cause) := by
  refine Emit.Avoids.not_reports (fun p => ?_) (alignCursor_avoids hcause)
  have hplain := emitPrimitive_avoids hcause p
  cases p with
  | epilogue =>
    have hposition : Emit.Avoids (Emit.position : Emit Unit Nat) (.error cause) := fun _ => trivial
    exact hposition.bind fun _ => (Emit.Avoids.onBuffer hcause _).bind fun _ => hplain
  | _ => exact hplain

end SplitRadix.Machine

namespace SplitRadix.Generator

open Target Routine Kernel Leaf
open Transform (isSupported)

variable {σ : Type} {g u : Generation σ} {request : Request}

/-- No kernel of a valid library refuses what is put into it, so that no generation fails for a
kernel. -/
theorem not_template_of_generate (hlib : g.generator.backend.kernels.WellFormed)
    {cause : TemplateError} (hbackend : ¬ g.generator.backend.Reports (.error (.template cause))) :
    (generate request).result g ≠ (.error (.error (.template cause)), u) := by
  intro hr
  cases generate_ensures.of_error hr with
  | error hattempt _ _ _ =>
    cases hattempt with
    | refused hvalid =>
      rcases validate_eq_error hvalid with ⟨x, hf⟩ | hf | ⟨reason, hf, -⟩ <;> cases hf
    | @noScratch _ c _ _ _ hf =>
      cases c with
      | error _ => cases hf
      | fault _ => cases hf
    | written hp _ _ _ hwrite =>
      exact (hp.unrejected hlib rfl hbackend _ _).of_error hwrite rfl

/-- A generation with a valid library fails for no kernel, unless the target itself says so. Every
order of offsets holds each of the first eight multiples of a supported size once, all of them below
2^31. They are what the fields of a leaf pass hold once it is written, and still hold in the finished
routine if no request to the target has touched that leaf pass. -/
theorem leaf_fields_hold_offsets (g : Generation σ) (request : Request)
    (hlib : g.generator.backend.kernels.validate = .ok ())
    (hbackend : ∀ cause, ¬ g.generator.backend.Reports (.error (.template cause))) :
    (∀ cause u, (generate request).result g ≠ (.error (.error (.template cause)), u)) ∧
    (isSupported request.size request.leaf = .ok true →
      (∀ order : OffsetOrder,
        (order.multiples request.size).Perm ((List.range 8).map (· * request.size)) ∧
          ∀ value ∈ order.multiples request.size, value < 2 ^ 31) ∧
      ∀ step fragment e u,
        (emitPass g.generator.backend request.direction request.size step).result e =
          (.ok fragment, u) →
        HoldsOffsets g.generator.backend.kernels request.size u.buffer.written step fragment) ∧
    ∀ r u, (generate request).result g = (.ok r, u) →
      isSupported request.size request.leaf = .ok true ∧
      ∃ schedule log, Schedule.make request.size g.plan.parameters.iterations = .ok schedule ∧
        (generate request).result (g.observed []) = (.ok r, u.observed log) ∧
        (∀ o ∈ log, g.generator.backend.Performs o) ∧
        r.fragments.length = schedule.steps.length + 6 ∧
        List.Forall₂
          (fun step fragment => (∀ o ∈ log, o.Spares fragment.Covers) →
            HoldsOffsets g.generator.backend.kernels request.size u.plan.region.bytes step fragment)
          schedule.steps ((r.fragments.drop 4).take schedule.steps.length) := by
  have hformed := Library.wellFormed_of_validate hlib
  refine ⟨fun cause u => not_template_of_generate hformed (hbackend cause), fun hsupported => ?_,
    fun r u h => ?_⟩
  · have hmax := Transform.le_of_isSupported hsupported
    have hfour := Transform.four_dvd_of_isSupported hsupported
    exact ⟨fun order => ⟨order.perm_multiples hfour, order.multiples_lt hmax⟩,
      fun step fragment e u hpass => emitPass_holds hformed hmax hpass⟩
  · obtain ⟨log, hobserved⟩ := generate_observed request g []
    rw [h] at hobserved
    obtain @⟨nodes, _, schedule, chain, start, stop, hp, hschedule, -, hown, hwritten, hplan,
      hstop⟩ := completed_of_generate (g := g.observed []) hlib hobserved
    have hlog : log = stop.own.log := congrArg Observed.log hstop
    obtain ⟨-, hsize, -, -⟩ := validate_eq_ok.1 hp.valid
    have hmax := Transform.le_of_isSupported hp.supported
    rw [← hsize] at hmax
    have hpos : ∀ pass, 0 < (g.generator.backend.kernels.leaf pass).length := fun pass =>
      Library.length_pos_of_validate hlib
        (List.mem_append_right _ (g.generator.backend.kernels.leaf_mem_leaves pass))
    have hholds := hwritten.holds hformed hpos hmax
      (g.plan.region.bytes.drop stop.buffer.position)
    rw [hsize] at hholds
    refine ⟨hp.supported, schedule, log, hschedule, hobserved, ?_, ?_⟩
    · obtain ⟨requests, hwriting⟩ := hwritten.writing
      obtain ⟨more, hmore, hperforms, -⟩ := hwriting.keeps
      rw [hlog, hmore, hown]
      exact hperforms
    · rw [show u.plan = _ from hplan, hlog]
      exact hholds

/-- A library whose leaf passes have their fields in descending order, half of them immediates. -/
theorem leaf_fields_hold_offsets_of_32 :
    let pass (p : Pass) : Template :=
      { Recorder.leafKernel p with
        sites := (List.range 8).map fun i =>
          ⟨72 - 9 * i, if i < 4 then .immediate else .displacement⟩ }
    let settings : Recorder.Settings := { kernels := { Recorder.kernels with leaf := pass } }
    let g : Generation Recorder :=
      { generator := { backend := Recorder.backend settings, own := {}, session := .start none }
        plan := { parameters := ⟨32, 4, .ofLeaves 8, Transform.referenceTable 4 3⟩
                  region := .blank 4099 2048 } }
    g.generator.backend.kernels.validate = .ok () ∧
    (∀ cause, ¬ g.generator.backend.Reports (.error (.template cause))) ∧
    ∃ r u schedule, (generate ⟨32, 4, .inverse⟩).result g = (.ok r, u) ∧
      Schedule.make 32 g.plan.parameters.iterations = .ok schedule ∧ schedule.steps ≠ [] ∧
      List.Forall₂ (HoldsOffsets g.generator.backend.kernels 32 u.plan.region.bytes)
        schedule.steps ((r.fragments.drop 4).take schedule.steps.length) := by
  intro pass settings g
  have hlib : g.generator.backend.kernels.validate = .ok () := eq_ok_of_toOption (by decide +kernel)
  have hreports : ∀ cause, ¬ g.generator.backend.Reports (.error (.template cause)) :=
    fun cause => Recorder.not_reports rfl settings
  have hok : ((generate ⟨32, 4, .inverse⟩).result g).1.isOk = true := by decide +kernel
  obtain ⟨r, u, hr⟩ := Action.exists_of_isOk hok
  obtain ⟨-, -, hfields⟩ := leaf_fields_hold_offsets g ⟨32, 4, .inverse⟩ hlib hreports
  obtain ⟨-, schedule, log, hschedule, -, hperforms, -, hholds⟩ := hfields r u hr
  have hsteps : schedule.steps ≠ [] := by
    have hcount := length_steps_of_make hschedule
    exact List.ne_nil_of_length_pos (by omega)
  have hspares := fun (fragment : Fragment) o ho =>
    (Recorder.onlyAppends settings).spares (hperforms o ho) fragment.Covers
  exact ⟨hlib, hreports, r, u, schedule, hr, hschedule, hsteps,
    hholds.imp fun _ fragment hfragment => hfragment (hspares fragment)⟩

/-- A target that zeroes all that was written before its epilogue has its routine accepted, with
leaf passes that hold no offsets. -/
theorem blanking_epilogue_spoils_fields :
    let g : Generation Unit :=
      { generator := { backend := Machine.backend.blanking, own := (), session := .start none }
        plan := { parameters := ⟨32, 4, .ofLeaves 8, Transform.referenceTable 4 3⟩
                  region := .blank 4096 2048 } }
    g.generator.backend.kernels.validate = .ok () ∧
    (∀ cause, ¬ g.generator.backend.Reports (.error (.template cause))) ∧
    isSupported 32 4 = .ok true ∧
    ∃ r u schedule, (generate ⟨32, 4, .forward⟩).result g = (.ok r, u) ∧
      Schedule.make 32 g.plan.parameters.iterations = .ok schedule ∧
      ¬ List.Forall₂ (HoldsOffsets g.generator.backend.kernels 32 u.plan.region.bytes)
        schedule.steps ((r.fragments.drop 4).take schedule.steps.length) := by
  intro g
  have hfields : ((generate ⟨32, 4, .forward⟩).result g).1.toOption.bind (fun r =>
      (Schedule.make 32 g.plan.parameters.iterations).toOption.map fun schedule =>
        (schedule.steps.zip ((r.fragments.drop 4).take schedule.steps.length)).any fun p =>
          (g.generator.backend.kernels.leaf p.1.pass).fieldsIn
            ((generate ⟨32, 4, .forward⟩).result g).2.plan.region.bytes p.2.offset !=
              p.1.order.multiples 32) = some true := by
    decide +kernel
  rcases hr : (generate ⟨32, 4, .forward⟩).result g with ⟨_ | r, u⟩
  · rw [hr] at hfields
    cases hfields
  cases hs : Schedule.make 32 g.plan.parameters.iterations with
  | error _ =>
    rw [hr, hs] at hfields
    cases hfields
  | ok schedule =>
    rw [hr, hs] at hfields
    obtain ⟨⟨step, fragment⟩, hmem, hspoilt⟩ := List.any_eq_true.1 (Option.some.inj hfields)
    refine ⟨Machine.kernels_validate, fun cause => Machine.blanking_not_reports rfl, by decide, r, u,
      schedule, rfl, rfl, fun hholds => ?_⟩
    have hsame := (List.forall₂_zip hholds hmem).fields
    exact absurd hsame (by simpa using hspoilt)

end SplitRadix.Generator

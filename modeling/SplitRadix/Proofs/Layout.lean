import Mathlib.Data.List.Forall2
import SplitRadix.Proofs.Capacity
import SplitRadix.Proofs.Pieces

/-!
# The layout of a routine

The fragments of a routine lie one after the other, in the order of its parts. What is written later
never touches what was written before, so every copy of a kernel is found in the region as it was
specialised, and what was put on a fetch boundary stays there.

* `Places`: a target that only appends, with alignments that lead to boundaries.
* `Lies`: a fragment holds a part.
* `Writing.placed`, `Writing.laid`: what a run writes is laid out in order.
* `Completed`: a generation that gave a routine.
* `routine_layout`: the fragments of a routine.
-/

namespace SplitRadix

open Target Kernel Leaf Scratch
open Transform (Parameters)

variable {σ : Type}

namespace Target.Backend

variable {backend : Backend σ} {e t : Emission σ}

/-- The target only appends, and its alignments lead to multiples of `grid`. -/
structure Places (backend : Backend σ) (grid : Nat) : Prop extends OnlyAppends backend where
  boundary : ∀ {bias padding : Nat} {e t : Emission σ},
    (backend.align bias).result e = (.ok padding, t) → grid ∣ t.buffer.address + bias

theorem OnlyAppends.places (h : backend.OnlyAppends) : backend.Places 1 :=
  { h with boundary := fun _ => Nat.one_dvd _ }

theorem KeepsLengths.places (hlengths : backend.KeepsLengths) :
    backend.Places backend.fetchAlignment where
  toOnlyAppends := hlengths.onlyAppends
  boundary {bias padding e t} h := by
    obtain ⟨bytes, hbytes, ht⟩ := (hlengths.align bias e).of_ok h
    have hdvd := Code.Buffer.dvd_of_paddingFor hbytes
    rw [ht, Code.Buffer.address_push, Nat.add_right_comm]
    exact hdvd

end Target.Backend

namespace Routine

/-! ## Where parts lie -/

/-- The fragment holds the part, in code at `base`. A copy of a kernel has the bytes of the kernel,
specialised, and what goes on a boundary is on one. -/
structure Part.Lies (part : Part) (direction : Direction) (grid base : Nat) (code : Bytes)
    (fragment : Fragment) : Prop where
  name : fragment.name = part.name
  inside : fragment.offset + fragment.length ≤ code.length
  kernel : ∀ template values, part.content = .kernel template values →
    fragment.length = template.length ∧
      template.Specialised direction values (Bytes.slice code fragment.offset fragment.length)
  boundary : ∀ bias, part.boundary = some bias → grid ∣ base + fragment.offset + bias

/-- A part stays where it is when more is written. -/
theorem Part.Lies.append {part : Part} {direction : Direction} {grid base : Nat} {code : Bytes}
    {fragment : Fragment} (h : part.Lies direction grid base code fragment) (more : Bytes) :
    part.Lies direction grid base (code ++ more) fragment where
  name := h.name
  inside := by
    have := h.inside
    rw [List.length_append]
    omega
  kernel template values hcontent := by
    rw [Bytes.slice_append_left h.inside]
    exact h.kernel template values hcontent
  boundary := h.boundary

/-- Parts laid out in order, all of them from `start` on. -/
structure Laid (direction : Direction) (grid start : Nat) (buffer : Code.Buffer)
    (parts : List Part) (fragments : List Fragment) : Prop where
  lies : List.Forall₂ (fun part fragment =>
    part.Lies direction grid buffer.base buffer.written fragment) parts fragments
  ordered : fragments.Pairwise fun a b => a.offset + a.length ≤ b.offset
  after : ∀ fragment ∈ fragments, start ≤ fragment.offset

variable {backend : Backend σ} {grid : Nat} {direction : Direction} {e t u : Emission σ}

theorem Aligned.push {boundary : Option Nat} (hplaces : backend.Places grid)
    (h : Aligned backend boundary e t) :
    (∃ bytes, t.buffer = e.buffer.push bytes) ∧
      ∀ bias, boundary = some bias → grid ∣ t.buffer.address + bias := by
  cases h with
  | free h => exact ⟨⟨[], h.buffer⟩, nofun⟩
  | padded hbefore h hafter =>
    rw [hafter.buffer, ← hbefore.buffer]
    exact ⟨(hplaces.align _ _).of_ok h, fun _ hbias => by cases hbias; exact hplaces.boundary h⟩

theorem Filled.push {content : Content} (happends : backend.OnlyAppends)
    (h : Filled backend direction content e t) :
    ∃ bytes, t.buffer = e.buffer.push bytes ∧ ∀ template values,
      content = .kernel template values → template.Specialised direction values bytes := by
  cases h with
  | kernel _ _ h => exact ⟨_, rfl, fun _ _ hcontent => by cases hcontent; exact h⟩
  | primitive h =>
    obtain ⟨bytes, ht⟩ := (happends.emit _ _).of_ok h
    exact ⟨bytes, ht, nofun⟩

/-- A part lies where it was written. -/
theorem Filled.lies {part : Part} {bytes : Bytes}
    (hpush : u.buffer = t.buffer.push bytes)
    (hkernel : ∀ template values, part.content = .kernel template values →
      template.Specialised direction values bytes)
    (hboundary : ∀ bias, part.boundary = some bias → grid ∣ t.buffer.address + bias) :
    part.Lies direction grid u.buffer.base u.buffer.written
      ⟨part.name, t.buffer.position, u.buffer.position - t.buffer.position⟩ := by
  have hlength : u.buffer.position - t.buffer.position = bytes.length := by
    rw [hpush, Code.Buffer.position_push, Nat.add_sub_cancel_left]
  have hslice : Bytes.slice u.buffer.written t.buffer.position bytes.length = bytes := by
    rw [hpush, Code.Buffer.written_push, ← Code.Buffer.length_written, Bytes.slice, List.drop_left,
      List.take_length]
  rw [hlength]
  refine ⟨rfl, ?_, fun template values hcontent => ?_, fun bias hbias => ?_⟩
  · rw [Code.Buffer.length_written, hpush]
    exact Nat.le_refl _
  · have hspecialised := hkernel template values hcontent
    exact ⟨hspecialised.length, hslice.symm ▸ hspecialised⟩
  · rw [hpush]
    exact hboundary bias hbias

/-- What a run writes is laid out in order, after what was there. -/
theorem Writing.placed (hplaces : backend.Places grid) {pieces : List Piece}
    {fragments : List Fragment} (h : Writing backend direction pieces e fragments u) :
    (∃ bytes, u.buffer = e.buffer.push bytes) ∧
      Laid direction grid e.buffer.position u.buffer (pieces.filterMap Piece.part?) fragments := by
  induction h with
  | done h => exact ⟨⟨[], h.buffer⟩, .nil, .nil, nofun⟩
  | @glue _ _ _ e _ t u hbefore hglue _ ih =>
    obtain ⟨bytes, ht⟩ := (hplaces.emit _ _).of_ok hglue
    rw [hbefore.buffer] at ht
    obtain ⟨⟨more, hu⟩, hlaid⟩ := ih
    refine ⟨⟨bytes ++ more, by rw [hu, ht, Code.Buffer.push_push]⟩, hlaid.lies, hlaid.ordered, ?_⟩
    intro fragment hmem
    have := hlaid.after fragment hmem
    rw [ht, Code.Buffer.position_push] at this
    omega
  | @part _ _ p e start stop u haligned hfilled _ ih =>
    obtain ⟨⟨padding, hstart⟩, hboundary⟩ := haligned.push hplaces
    obtain ⟨bytes, hstop, hkernel⟩ := hfilled.push hplaces.toOnlyAppends
    obtain ⟨⟨more, hu⟩, hlaid⟩ := ih
    have hhead := Filled.lies hstop hkernel hboundary
    have hle : start.buffer.position ≤ stop.buffer.position := by
      rw [hstop, Code.Buffer.position_push]
      omega
    have hbefore : e.buffer.position ≤ start.buffer.position := by
      rw [hstart, Code.Buffer.position_push]
      omega
    refine ⟨⟨padding ++ (bytes ++ more), ?_⟩, .cons ?_ hlaid.lies, ?_, ?_⟩
    · rw [hu, hstop, hstart, Code.Buffer.push_push, Code.Buffer.push_push]
    · rw [hu, Code.Buffer.written_push]
      exact hhead.append more
    · refine List.pairwise_cons.2 ⟨fun fragment hmem => ?_, hlaid.ordered⟩
      have := hlaid.after fragment hmem
      dsimp only
      omega
    · intro fragment hmem
      rcases List.mem_cons.1 hmem with rfl | hmem
      · exact hbefore
      · have := hlaid.after fragment hmem
        omega

theorem Writing.laid (hlengths : backend.KeepsLengths) {pieces : List Piece}
    {fragments : List Fragment} (h : Writing backend direction pieces e fragments u) :
    (∃ bytes, u.buffer = e.buffer.push bytes) ∧
      Laid direction backend.fetchAlignment e.buffer.position u.buffer
        (pieces.filterMap Piece.part?) fragments :=
  h.placed hlengths.places

theorem Writing.position_le (hlengths : backend.KeepsLengths) {pieces : List Piece}
    {fragments : List Fragment} (h : Writing backend direction pieces e fragments u) :
    e.buffer.position ≤ u.buffer.position := by
  obtain ⟨bytes, hu⟩ := (h.laid hlengths).1
  rw [hu, Code.Buffer.position_push]
  omega

/-! ## The parts of a routine -/

variable {params : Parameters} {schedule : Schedule} {nodes : List Node}
variable {r : Routine × CallChain.Summary}

theorem Written.placed (hplaces : backend.Places grid)
    (h : Written backend params direction schedule nodes e r u) :
    (∃ bytes, u.buffer = e.buffer.push bytes) ∧
      Laid direction grid e.buffer.position u.buffer
        (parts backend.kernels params.size schedule.steps) r.1.fragments := by
  obtain ⟨requests, hwriting⟩ := h.writing
  have hlaid := hwriting.placed hplaces
  rw [filterMap_part_pieces] at hlaid
  exact hlaid

theorem Written.laid (hlengths : backend.KeepsLengths)
    (h : Written backend params direction schedule nodes e r u) :
    (∃ bytes, u.buffer = e.buffer.push bytes) ∧
      Laid direction backend.fetchAlignment e.buffer.position u.buffer
        (parts backend.kernels params.size schedule.steps) r.1.fragments :=
  h.placed hlengths.places

/-- The last fragment ends the routine. -/
theorem Written.last (hlengths : backend.KeepsLengths)
    (h : Written backend params direction schedule nodes e r u) :
    r.1.fragments.getLast?.map (fun last => last.offset + last.length) = some r.1.length := by
  obtain ⟨-, -, -, -, -, hexit, -⟩ := h
  obtain ⟨bytes, hu⟩ := (hlengths.onlyAppends.emit _ _).of_ok hexit
  dsimp only
  rw [List.getLast?_concat, Option.map_some, hu, Code.Buffer.position_push, Nat.add_sub_cancel_left]

/-- The offsets that a routine names are those of its first three fragments. -/
theorem Written.offsets (h : Written backend params direction schedule nodes e r u) :
    (r.1.fragments.take 3).map Fragment.offset =
      [r.1.x4Offset, r.1.x8Offset, r.1.entryOffset] := by
  cases h
  rfl

/-- Base cases and entry lie on boundaries. -/
theorem Written.boundaries (hlengths : backend.KeepsLengths)
    (h : Written backend params direction schedule nodes e r u) :
    ∀ offset ∈ [r.1.x4Offset, r.1.x8Offset, r.1.entryOffset],
      backend.fetchAlignment ∣ u.buffer.base + offset := by
  have hlies := (h.laid hlengths).2.lies
  obtain ⟨-, -, -, -, -, -, -⟩ := h
  obtain ⟨hx4, hlies⟩ := List.forall₂_cons.1 hlies
  obtain ⟨hx8, hlies⟩ := List.forall₂_cons.1 hlies
  obtain ⟨hentry, -⟩ := List.forall₂_cons.1 hlies
  intro offset hmem
  simp only [List.mem_cons, List.not_mem_nil, or_false] at hmem
  rcases hmem with rfl | rfl | rfl
  · exact hx4.boundary 0 rfl
  · exact hx8.boundary 0 rfl
  · exact hentry.boundary 0 rfl

theorem length_parts (lib : Library) (size : Nat) (steps : List Step) :
    (parts lib size steps).length = steps.length + 6 := by
  simp [parts]

/-- A routine has two leaf passes or four. -/
theorem length_steps_of_make {n : Nat} {counts : Transform.IterationCounts} {schedule : Schedule}
    (h : Schedule.make n counts = .ok schedule) :
    schedule.steps.length = 2 ∨ schedule.steps.length = 4 := by
  rcases steps_of_make h with hs | hs | ⟨odd, bound, hs | hs⟩ <;> simp [hs]

/-- The routine lies in the region as it should. Its fragments are its parts in order: the base
cases, the prologue, the start of the leaf passes, one leaf pass for each step, the bridge and the
epilogue. They do not overlap, and the last one ends the routine. Base cases and entry lie on fetch
boundaries, as do the loop heads of aligned leaf passes. -/
structure LaidOut (r : Routine) (backend : Backend σ) (direction : Direction) (size : Nat)
    (steps : List Step) (region : Region) : Prop where
  lies : List.Forall₂
    (fun part fragment =>
      part.Lies direction backend.fetchAlignment region.base region.bytes fragment)
    (parts backend.kernels size steps) r.fragments
  count : r.fragments.length = 8 ∨ r.fragments.length = 10
  recordable : r.fragments.length ≤ maxFragments
  ordered : r.fragments.Pairwise fun a b => a.offset + a.length ≤ b.offset
  last : r.fragments.getLast?.map (fun fragment => fragment.offset + fragment.length) =
    some r.length
  offsets : (r.fragments.take 3).map Fragment.offset = [r.x4Offset, r.x8Offset, r.entryOffset]
  boundaries : ∀ offset ∈ [r.x4Offset, r.x8Offset, r.entryOffset],
    backend.fetchAlignment ∣ region.base + offset

theorem LaidOut.append {r : Routine} {size base : Nat} {steps : List Step} {code : Bytes}
    (h : r.LaidOut backend direction size steps ⟨base, code⟩) (more : Bytes) :
    r.LaidOut backend direction size steps ⟨base, code ++ more⟩ :=
  { h with lies := h.lies.imp fun _ _ hpart => hpart.append more }

theorem Written.laidOut (hlengths : backend.KeepsLengths)
    (h : Written backend params direction schedule nodes e r u)
    {counts : Transform.IterationCounts} {n : Nat}
    (hschedule : Schedule.make n counts = .ok schedule) :
    r.1.LaidOut backend direction params.size schedule.steps
      ⟨u.buffer.base, u.buffer.written⟩ := by
  obtain ⟨-, hlies, hordered, -⟩ := h.laid hlengths
  have hcount : schedule.steps.length + 6 = r.1.fragments.length := by
    rw [← length_parts]
    exact hlies.length_eq
  have hsteps := length_steps_of_make hschedule
  refine ⟨hlies, by omega, ?_, hordered, h.last hlengths, h.offsets, h.boundaries hlengths⟩
  unfold maxFragments
  omega

end Routine

namespace Generator

open Routine

variable {g u : Generation σ} {request : Request} {r : Routine}

/-! ## Routines in their region -/

/-- A generation that gave the routine `r`: it was written from the start of the region, and nothing
else of the plan has changed. -/
inductive Completed (g : Generation σ) (request : Request) (r : Routine) (u : Generation σ) :
    Prop where
  | intro {nodes : Array Node} {s : Session} {schedule : Schedule} {chain : CallChain.Summary}
    {start stop : Emission σ} (hp : Prepared g request nodes s)
    (hschedule : Schedule.make request.size g.plan.parameters.iterations = .ok schedule)
    (hbuffer : start.buffer = .start g.plan.region) (hown : start.own = g.generator.own)
    (hwritten : Written g.generator.backend g.plan.parameters request.direction schedule
      nodes.toList start (r, chain) stop)
    (hplan : u.plan = { g.plan with region := stop.buffer.overlay g.plan.region })
    (hstop : u.generator.own = stop.own)

theorem completed_of_generate (hlib : g.generator.backend.kernels.validate = .ok ())
    (h : (generate request).result g = (.ok r, u)) : Completed g request r u := by
  cases generate_ensures.of_ok h with
  | routine hattempt hplan hown _ =>
    cases hattempt with
    | written hp hbound hfits hschedule hwrite =>
      have hlib := Library.wellFormed_of_validate hlib
      exact .intro hp hschedule rfl rfl (written_of_emit hlib hwrite) hplan hown

/-- A generated routine is laid out as its schedule says, in the region it was written to. -/
theorem routine_layout (g : Generation σ) (request : Request)
    (hlib : g.generator.backend.kernels.validate = .ok ())
    (hlengths : g.generator.backend.KeepsLengths) {r : Routine} {u : Generation σ}
    (h : (generate request).result g = (.ok r, u)) :
    u.plan.region.base = g.plan.region.base ∧
    ∃ schedule, Schedule.make request.size g.plan.parameters.iterations = .ok schedule ∧
      r.LaidOut g.generator.backend request.direction request.size schedule.steps
        u.plan.region := by
  obtain @⟨nodes, _, schedule, chain, start, stop, hp, hschedule, hbuffer, -, hwritten, hplan⟩ :=
    completed_of_generate hlib h
  obtain ⟨-, hsize, -, -⟩ := validate_eq_ok.1 hp.valid
  obtain ⟨bytes, hstop⟩ := (hwritten.laid hlengths).1
  have hbase : stop.buffer.base = g.plan.region.base := by
    rw [hstop, Code.Buffer.base_push, hbuffer]
    rfl
  have hlaid := hwritten.laidOut hlengths hschedule
  rw [hsize, hbase] at hlaid
  rw [hplan]
  exact ⟨rfl, schedule, hschedule, hlaid.append _⟩

/-- The x86-64 target lays a transform of 32 elements with leaves of 4 out in a region that starts
off every boundary. -/
theorem routine_layout_of_32 :
    let g : Generation Unit :=
      { generator := { backend := Machine.backend, own := (), session := .start none }
        plan := { parameters := ⟨32, 4, .ofLeaves 8, Transform.referenceTable 4 3⟩
                  region := .blank 4099 2048 } }
    g.generator.backend.kernels.validate = .ok () ∧ g.generator.backend.KeepsLengths ∧
    ∃ r u schedule, (generate ⟨32, 4, .inverse⟩).result g = (.ok r, u) ∧ r.x4Offset = 13 ∧
      Schedule.make 32 g.plan.parameters.iterations = .ok schedule ∧
      r.LaidOut g.generator.backend .inverse 32 schedule.steps u.plan.region := by
  intro g
  have hlib : g.generator.backend.kernels.validate = .ok () := Machine.kernels_validate
  have hok : ((generate ⟨32, 4, .inverse⟩).result g).1.toOption.map Routine.x4Offset = some 13 := by
    decide +kernel
  rcases hr : (generate ⟨32, 4, .inverse⟩).result g with ⟨_ | r, u⟩
  · rw [hr] at hok
    cases hok
  · rw [hr] at hok
    obtain ⟨-, schedule, hschedule, hlaid⟩ :=
      routine_layout g ⟨32, 4, .inverse⟩ hlib Machine.keepsLengths hr
    exact ⟨hlib, Machine.keepsLengths, r, u, schedule, rfl, Option.some.inj hok, hschedule, hlaid⟩

end Generator

end SplitRadix

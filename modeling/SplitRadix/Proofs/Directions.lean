import SplitRadix.Proofs.Layout

/-!
# The two directions

A routine and the routine of the other direction are laid out alike. Their codes differ in the marked
bytes of the kernels and nowhere else, as long as the target does not do something else for its
primitives in one direction than in the other. It may change what was written before, but has to leave
the marked bytes alone.

* `Flipped`: two codes that differ in marked bytes.
* `Backend.Uniform`: a target that writes the same at the same place.
* `Writing.alongside`: two runs for the two directions, side by side.
* `directions_differ_in_flips`: how the two routines compare.
-/

namespace SplitRadix

open Target Kernel Leaf
open Transform (Parameters)

variable {σ α : Type}

/-! ## Codes that differ in marked bytes -/

/-- The two codes differ by a mask at each of the sites, and are the same elsewhere. -/
structure Bytes.Flipped (sites : List (Nat × UInt8)) (a b : Bytes) : Prop where
  length : b.length = a.length
  site : ∀ s ∈ sites, ∃ byte, a[s.1]? = some byte ∧ b[s.1]? = some (byte ^^^ s.2)
  rest : ∀ i, (∀ s ∈ sites, s.1 ≠ i) → a[i]? = b[i]?

namespace Bytes.Flipped

variable {sites more : List (Nat × UInt8)} {a b c d : Bytes}

theorem refl (a : Bytes) : Flipped [] a a := ⟨rfl, nofun, fun _ _ => rfl⟩

theorem append (h : Flipped sites a b) (h' : Flipped more c d) :
    Flipped (sites ++ more.map fun s => (a.length + s.1, s.2)) (a ++ c) (b ++ d) where
  length := by rw [List.length_append, List.length_append, h.length, h'.length]
  site s hs := by
    rcases List.mem_append.1 hs with hs | hs
    · obtain ⟨byte, ha, hb⟩ := h.site s hs
      have hlt := (List.getElem?_eq_some_iff.1 ha).1
      refine ⟨byte, ?_, ?_⟩
      · rw [List.getElem?_append_left hlt, ha]
      · rw [List.getElem?_append_left (h.length ▸ hlt), hb]
    · obtain ⟨s, hmore, rfl⟩ := List.mem_map.1 hs
      obtain ⟨byte, hc, hd⟩ := h'.site s hmore
      refine ⟨byte, ?_, ?_⟩
      · rw [List.getElem?_append_right (Nat.le_add_right _ _), Nat.add_sub_cancel_left, hc]
      · rw [← h.length, List.getElem?_append_right (Nat.le_add_right _ _), Nat.add_sub_cancel_left,
          hd]
  rest i hi := by
    by_cases hlt : i < a.length
    · rw [List.getElem?_append_left hlt, List.getElem?_append_left (h.length ▸ hlt)]
      exact h.rest i fun s hs => hi s (List.mem_append_left _ hs)
    · have hle := Nat.not_lt.1 hlt
      rw [List.getElem?_append_right hle, List.getElem?_append_right (h.length ▸ hle), h.length]
      refine h'.rest _ fun s hs heq => ?_
      exact hi _ (List.mem_append_right _ (List.mem_map_of_mem hs)) (by dsimp only; omega)

/-- Where the masks change something, the codes differ exactly at the sites. -/
theorem ne_iff (h : Flipped sites a b) (hmask : ∀ s ∈ sites, s.2 ≠ 0) (i : Nat) :
    a[i]? ≠ b[i]? ↔ ∃ mask, (i, mask) ∈ sites := by
  constructor
  · intro hne
    by_cases hsite : ∃ mask, (i, mask) ∈ sites
    · exact hsite
    · exact absurd (h.rest i fun s hs heq => hsite ⟨s.2, heq ▸ hs⟩) hne
  · intro hsite heq
    obtain ⟨mask, hmem⟩ := hsite
    obtain ⟨byte, ha, hb⟩ := h.site _ hmem
    rw [heq, hb] at ha
    have hxor : byte ^^^ mask = byte ^^^ 0 := by simpa using ha
    exact hmask _ hmem ((UInt8.xor_right_inj byte).1 hxor)

end Bytes.Flipped

/-- Two copies with the same values in their fields are the same outside the marked bytes. -/
theorem Kernel.Template.Specialised.agree {t : Template} {direction other : Direction}
    {values : List UInt32} {a b : Bytes} (ha : t.Specialised direction values a)
    (hb : t.Specialised other values b) {i : Nat} (hflip : i ∉ t.flips) : a[i]? = b[i]? := by
  by_cases hfield : ∃ site ∈ t.sites, site.Covers i
  · obtain ⟨site, hsite, hcovers⟩ := hfield
    exact Holds.agree ha.accepts.1 ha.field hb.field hsite hcovers
  · have hclear : ∀ site ∈ t.sites, ¬ site.Covers i := fun site hsite hcovers =>
      hfield ⟨site, hsite, hcovers⟩
    rw [ha.rest i hflip hclear, hb.rest i hflip hclear]

/-- The copies of a kernel for the two directions differ in its marked bytes. -/
theorem Kernel.Template.Specialised.flipped {t : Template} (ht : t.WellFormed)
    {values : List UInt32} {a b : Bytes} (ha : t.Specialised .forward values a)
    (hb : t.Specialised .inverse values b) :
    Bytes.Flipped (t.flips.map fun i => (i, t.flipMask)) a b where
  length := hb.length.trans ha.length.symm
  site s hs := by
    obtain ⟨i, hi, rfl⟩ := List.mem_map.1 hs
    have hbyte := List.getElem?_eq_getElem (ht.flips_lt i hi)
    dsimp only
    rw [ha.flip i hi, hb.flip i hi, hbyte]
    exact ⟨_, rfl, rfl⟩
  rest _ hi := ha.agree hb fun hmem => hi _ (List.mem_map_of_mem hmem) rfl

/-! ## Targets that write the same at the same place -/

/-- Two buffers in the same memory, with their cursors at the same offset. -/
structure Code.Buffer.SamePlace (a b : Code.Buffer) : Prop where
  base : b.base = a.base
  capacity : b.capacity = a.capacity
  position : b.position = a.position

namespace Code.Buffer.SamePlace

variable {a b : Code.Buffer}

theorem push (h : a.SamePlace b) {x y : Bytes} (hlength : y.length = x.length) :
    (a.push x).SamePlace (b.push y) :=
  ⟨h.base, h.capacity, by rw [position_push, position_push, h.position, hlength]⟩

theorem address (h : a.SamePlace b) : b.address = a.address := by
  rw [Code.Buffer.address, Code.Buffer.address, h.base, h.position]

theorem length (h : a.SamePlace b) : b.written.length = a.written.length := by
  rw [length_written, length_written, h.position]

end Code.Buffer.SamePlace

/-- Two codes `a` and `b` become `x` and `y`: bytes in which they agree agree again, and bytes in which
they differ stay as they are. -/
structure Bytes.SameChange (a b x y : Bytes) : Prop where
  same : ∀ i : Nat, a[i]? = b[i]? → x[i]? = y[i]?
  kept : ∀ i : Nat, a[i]? ≠ b[i]? → x[i]? = a[i]? ∧ y[i]? = b[i]?

/-- Adding the same bytes to codes of the same length is the same change. -/
theorem Bytes.SameChange.append {a b : Bytes} (h : b.length = a.length) (bytes : Bytes) :
    SameChange a b (a ++ bytes) (b ++ bytes) where
  same i hi := by
    rw [List.getElem?_append, List.getElem?_append, h, hi]
  kept i hi := by
    have hlt : i < a.length := by
      apply Nat.lt_of_not_le
      intro hle
      rw [List.getElem?_eq_none hle, List.getElem?_eq_none (h ▸ hle)] at hi
      exact hi rfl
    exact ⟨List.getElem?_append_left hlt, List.getElem?_append_left (h ▸ hlt)⟩

/-- Codes that differ in marked bytes still do so after the same change. -/
theorem Bytes.Flipped.change {sites : List (Nat × UInt8)} {a b x y : Bytes}
    (h : Flipped sites a b) (hmask : ∀ s ∈ sites, s.2 ≠ 0) (hlength : y.length = x.length)
    (hchange : SameChange a b x y) : Flipped sites x y where
  length := hlength
  site s hs := by
    obtain ⟨hx, hy⟩ := hchange.kept s.1 ((h.ne_iff hmask s.1).2 ⟨s.2, hs⟩)
    rw [hx, hy]
    exact h.site s hs
  rest i hi := hchange.same i (h.rest i hi)

namespace Target

/-- Two runs of the operation from the same place and from target states that are alike end at the
same place, in states that are alike, and with the same change of what was written. -/
def Emit.Uniform (alike : σ → σ → Prop) (act : Emit σ α) : Prop :=
  ∀ {e f t u : Emission σ} {a b : α}, e.buffer.SamePlace f.buffer → alike e.own f.own →
    act.result e = (.ok a, t) → act.result f = (.ok b, u) →
      alike t.own u.own ∧ t.buffer.SamePlace u.buffer ∧
        Bytes.SameChange e.buffer.written f.buffer.written t.buffer.written u.buffer.written

/-- The target writes the same at the same place. -/
structure Backend.Uniform (backend : Backend σ) (alike : σ → σ → Prop) : Prop where
  emit : ∀ p, (backend.emit p).Uniform alike
  align : ∀ bias, (backend.align bias).Uniform alike

end Target

namespace Machine

end Machine

namespace Routine

/-! ## The two directions side by side -/

/-- The marked bytes of a part. -/
def Content.flips : Content → List (Nat × UInt8)
  | .kernel template _ => template.flips.map fun i => (i, template.flipMask)
  | .primitive _ => []

/-- The marked bytes of all fragments that are copies of kernels. -/
def flipSites (parts : List Part) (fragments : List Fragment) : List (Nat × UInt8) :=
  (parts.zip fragments).flatMap fun (part, fragment) =>
    part.content.flips.map fun s => (fragment.offset + s.1, s.2)

/-- Writing for the two directions has come to the same place, and what was written differs at the
sites. -/
structure Alongside (alike : σ → σ → Prop) (sites : List (Nat × UInt8)) (e f : Emission σ) :
    Prop where
  place : e.buffer.SamePlace f.buffer
  own : alike e.own f.own
  masks : ∀ s ∈ sites, s.2 ≠ 0
  code : Bytes.Flipped sites e.buffer.written f.buffer.written

variable {backend : Backend σ} {alike : σ → σ → Prop} {sites : List (Nat × UInt8)}
variable {e f t u : Emission σ}

theorem Alongside.push (h : Alongside alike sites e f) {more : List (Nat × UInt8)} {x y : Bytes}
    (hmasks : ∀ s ∈ more, s.2 ≠ 0) (hflipped : Bytes.Flipped more x y)
    (ht : t.buffer = e.buffer.push x) (hu : u.buffer = f.buffer.push y) (hown : alike t.own u.own) :
    Alongside alike (sites ++ more.map fun s => (e.buffer.position + s.1, s.2)) t u := by
  refine ⟨?_, hown, ?_, ?_⟩
  · rw [ht, hu]
    exact h.place.push hflipped.length
  · intro s hs
    rcases List.mem_append.1 hs with hs | hs
    · exact h.masks s hs
    · obtain ⟨site, hsite, rfl⟩ := List.mem_map.1 hs
      exact hmasks site hsite
  · rw [ht, hu, Code.Buffer.written_push, Code.Buffer.written_push, ← Code.Buffer.length_written]
    exact h.code.append hflipped

theorem Alongside.act {act : Emit σ α} {a b : α} (h : Alongside alike sites e f)
    (hact : act.Uniform alike) (ht : act.result e = (.ok a, t)) (hu : act.result f = (.ok b, u)) :
    Alongside alike sites t u := by
  obtain ⟨hown, hplace, hchange⟩ := hact h.place h.own ht hu
  exact ⟨hplace, hown, h.masks, h.code.change h.masks hplace.length hchange⟩

theorem Alongside.noted (h : Alongside alike sites e f) (ht : Noted e t) (hu : Noted f u) :
    Alongside alike sites t u := by
  obtain ⟨hplace, hown, hmasks, hcode⟩ := h
  rw [← ht.buffer, ← hu.buffer] at hplace hcode
  rw [← ht.own, ← hu.own] at hown
  exact ⟨hplace, hown, hmasks, hcode⟩

theorem Aligned.alongside (hbackend : backend.Uniform alike) {boundary : Option Nat}
    (h : Alongside alike sites e f) (ht : Aligned backend boundary e t)
    (hu : Aligned backend boundary f u) : Alongside alike sites t u := by
  cases ht with
  | free ht =>
    cases hu with
    | free hu => exact h.noted ht hu
  | padded hbefore ht hafter =>
    cases hu with
    | padded hbefore' hu hafter' =>
      exact ((h.noted hbefore hbefore').act (hbackend.align _) ht hu).noted hafter hafter'

theorem Filled.alongside (hbackend : backend.Uniform alike) {content : Content}
    (h : Alongside alike sites e f) (ht : Filled backend .forward content e t)
    (hu : Filled backend .inverse content f u) :
    Alongside alike (sites ++ content.flips.map fun s => (e.buffer.position + s.1, s.2)) t u := by
  cases ht with
  | kernel _ hwell ht =>
    cases hu with
    | kernel _ _ hu =>
      refine h.push (fun s hs => ?_) (ht.flipped hwell hu) rfl rfl h.own
      obtain ⟨i, hi, rfl⟩ := List.mem_map.1 hs
      exact hwell.flipMask_ne i hi
  | primitive ht =>
    cases hu with
    | primitive hu =>
      rw [Content.flips, List.map_nil, List.append_nil]
      exact h.act (hbackend.emit _) ht hu

/-- Runs for the two directions give the same fragments, and codes that differ in the marked bytes
of these. -/
theorem Writing.alongside (hbackend : backend.Uniform alike) {pieces : List Piece}
    {fragments others : List Fragment} (h : Alongside alike sites e f)
    (ht : Writing backend .forward pieces e fragments t)
    (hu : Writing backend .inverse pieces f others u) :
    others = fragments ∧ Alongside alike
      (sites ++ flipSites (pieces.filterMap Piece.part?) fragments) t u := by
  induction ht generalizing f others sites with
  | done ht =>
    cases hu with
    | done hu =>
      refine ⟨rfl, ?_⟩
      rw [flipSites, List.filterMap_nil, List.zip_nil_left, List.flatMap_nil, List.append_nil]
      exact h.noted ht hu
  | glue hbefore hglue _ ih =>
    cases hu with
    | glue hbefore' hglue' hu =>
      exact ih ((h.noted hbefore hbefore').act (hbackend.emit _) hglue hglue') hu
  | @part pieces fragments p e start stop t haligned hfilled _ ih =>
    cases hu with
    | part haligned' hfilled' hu =>
      have hstart := haligned.alongside hbackend h haligned'
      have hstop := hfilled.alongside hbackend hstart hfilled'
      obtain ⟨rfl, hrest⟩ := ih hstop hu
      rw [hstart.place.position, hstop.place.position]
      refine ⟨rfl, ?_⟩
      rw [List.append_assoc] at hrest
      exact hrest

/-- What routines for the two directions have in common. -/
structure Agree (r s : Routine) : Prop where
  entryOffset : s.entryOffset = r.entryOffset
  length : s.length = r.length
  x4Offset : s.x4Offset = r.x4Offset
  x8Offset : s.x8Offset = r.x8Offset
  callSites : s.callSites = r.callSites
  fragments : s.fragments = r.fragments

variable {params : Parameters} {schedule : Schedule} {nodes : List Node}
variable {r s : Routine × CallChain.Summary}

theorem Written.alongside (hbackend : backend.Uniform alike) (h : Alongside alike [] e f)
    (ht : Written backend params .forward schedule nodes e r t)
    (hu : Written backend params .inverse schedule nodes f s u) :
    Agree r.1 s.1 ∧
      Alongside alike (flipSites (parts backend.kernels params.size schedule.steps)
        r.1.fragments) t u := by
  obtain @⟨x4, x8, prologue, rest, ⟨x4Address, x8Address⟩, _, chain, based, exit, t,
    hbased, hx4, hx8, hchain, hbody, hexit, -⟩ := ht
  obtain @⟨_, _, prologue', rest', ⟨x4Address', x8Address'⟩, _, chain', based', exit', u,
    hbased', hx4', hx8', hchain', hbody', hexit', -⟩ := hu
  -- the base cases lie at the same addresses, so the chains call the same targets
  obtain ⟨hsame, hatBody⟩ := hbased.alongside hbackend h hbased'
  cases hsame
  rw [Code.Buffer.addressOf, hatBody.place.base] at hx4' hx8'
  cases hx4.symm.trans hx4'
  cases hx8.symm.trans hx8'
  cases hchain.symm.trans hchain'
  obtain ⟨hfragments, hatEnd⟩ := Writing.alongside hbackend h
    ((hbased.append hbody).append (writing_of_exit hexit))
    ((hbased'.append hbody').append (writing_of_exit hexit'))
  have hprologue : prologue' = prologue := by
    simp only [List.cons_append, List.nil_append, List.cons.injEq, true_and] at hfragments
    exact hfragments.1
  rw [filterMap_part_pieces, List.nil_append] at hatEnd
  exact ⟨⟨by rw [hprologue], hatEnd.place.position, rfl, rfl, rfl, hfragments⟩, hatEnd⟩

theorem Writing.names {direction : Direction} {pieces : List Piece} {fragments : List Fragment}
    (h : Writing backend direction pieces e fragments t) :
    fragments.map Fragment.name = (pieces.filterMap Piece.part?).map Part.name := by
  induction h with
  | done _ => rfl
  | glue _ _ _ ih => exact ih
  | @part _ _ p _ _ _ _ _ _ _ ih => exact congrArg (p.name :: ·) ih

/-- The fragments of a routine are named after its parts. -/
theorem Written.names {direction : Direction}
    (h : Written backend params direction schedule nodes e r t) :
    r.1.fragments.map Fragment.name =
      (parts backend.kernels params.size schedule.steps).map Part.name := by
  obtain ⟨requests, hwriting⟩ := h.writing
  rw [hwriting.names, filterMap_part_pieces]

/-- The code of a routine is what was written. -/
theorem Written.code {direction : Direction}
    (h : Written backend params direction schedule nodes e r t) (region : Region) :
    r.1.code (t.buffer.overlay region).bytes = .ok t.buffer.written := by
  obtain ⟨-, -, -, -, -, -, -⟩ := h
  unfold Routine.code Code.Buffer.overlay
  dsimp only
  rw [← Code.Buffer.length_written, List.take_left, if_pos (by simp)]

theorem template_mem_of_part {lib : Library} {size : Nat} {steps : List Step} {part : Part}
    (h : part ∈ parts lib size steps) {t : Template} {values : List UInt32}
    (hcontent : part.content = .kernel t values) : t ∈ lib.templates := by
  simp only [parts, List.mem_append, List.mem_cons, List.mem_map, List.not_mem_nil,
    or_false] at h
  rcases h with ((rfl | rfl | rfl | rfl) | ⟨step, -, rfl⟩) | rfl | rfl <;> cases hcontent
  · simp [Library.templates, Library.fixed]
  · simp [Library.templates, Library.fixed]
  · simp [Library.templates, Library.fixed]
  · exact List.mem_append_right _ (lib.leaf_mem_leaves step.pass)
  · simp [Library.templates, Library.fixed]

end Routine

namespace Generator

open Routine

end Generator

end SplitRadix

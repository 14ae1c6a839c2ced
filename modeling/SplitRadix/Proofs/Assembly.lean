import SplitRadix.Proofs.Directions
import SplitRadix.Proofs.GlueText
import SplitRadix.Proofs.KernelText
import SplitRadix.Proofs.Requests
import SplitRadix.Proofs.Wear

/-!
# Routines of the x86-64 target as instructions

A routine of the x86-64 target is a text from its first byte to its last: copies of kernels, glue and
padding are all made of whole instructions. A routine is shorter than the reach of a call, so that no
call needs a slot.

* `Assembled`: a generation for the x86-64 target that gave a routine.
* `assembled_of_generate`: every generation that gives a routine is one.
* `Fragment.PartOf`: fragments that start and end with an instruction of a text.
* `Writing.text`: what is written is a text, and its fragments are parts of it.
-/

namespace SplitRadix.Fragment

open Machine

/-- A fragment that is a part, with something in it, of a text that starts at `start`. -/
def PartOf (words : List Spelling) (start : Nat) (f : Fragment) : Prop :=
  ∃ before own after, words = before ++ own ++ after ∧ own ≠ [] ∧
    f.offset = start + (Spelling.text before).length ∧ f.length = (Spelling.text own).length

theorem PartOf.after {f : Fragment} {words : List Spelling} {start : Nat} (first : List Spelling)
    (h : f.PartOf words (start + (Spelling.text first).length)) :
    f.PartOf (first ++ words) start := by
  obtain ⟨before, own, after, rfl, hne, hoffset, hlength⟩ := h
  refine ⟨first ++ before, own, after, by simp, hne, ?_, hlength⟩
  rw [hoffset, Spelling.text_append, List.length_append, Nat.add_assoc]

theorem PartOf.stop_le {f : Fragment} {words : List Spelling} {start : Nat}
    (h : f.PartOf words start) : f.offset + f.length ≤ start + (Spelling.text words).length := by
  obtain ⟨before, own, after, rfl, -, hoffset, hlength⟩ := h
  rw [Spelling.text_append, Spelling.text_append, List.length_append, List.length_append]
  omega

end SplitRadix.Fragment

namespace SplitRadix.Routine

open Target Kernel Leaf Machine Spelling
open Transform (Parameters)

/-! ## Pieces that are texts -/

/-- A piece that is a text when it is written between `base` and `base + bound`. -/
def Piece.Readable (base bound : Nat) : Piece → Prop
  | .part ⟨_, .kernel template _, _⟩ => template ∈ Machine.kernels.templates
  | .part ⟨_, .primitive p, _⟩ => p = .prologue ∨ p = .epilogue
  | .glue p => ∀ ip, base ≤ ip → ip ≤ base + bound → Expressible ip p

variable {direction : Direction} {e t u : Emission Unit}

theorem Aligned.text {boundary : Option Nat} (h : Aligned Machine.backend boundary e t) :
    ∃ words, t.buffer = e.buffer.push (text words) := by
  cases h with
  | free h => exact ⟨[], h.buffer⟩
  | padded hbefore h hafter =>
    obtain ⟨-, -, hpadded⟩ := (alignCursor_ensures _).of_ok h
    rename_i padding _ _
    obtain ⟨words, hwords⟩ := text_padding padding
    rw [hafter.buffer, hpadded, hbefore.buffer, hwords]
    exact ⟨words, rfl⟩

theorem written_append {bytes : Bytes}
    (h : (do let _ ← Emit.append bytes : Emit Unit Unit).result e = (.ok (), t)) :
    t.buffer = e.buffer.push bytes := by
  obtain ⟨_, _, h, hrest⟩ := Action.result_bind_eq_ok.1 h
  cases hrest
  rw [(Emit.append_ensures bytes e).of_ok h]

theorem Filled.text {part : Part} {base bound : Nat}
    (hpart : (Piece.part part).Readable base bound)
    (h : Filled Machine.backend direction part.content e t) :
    ∃ words, words ≠ [] ∧ t.buffer = e.buffer.push (text words) := by
  obtain ⟨name, content, boundary⟩ := part
  cases h with
  | kernel _ _ hcopy =>
    obtain ⟨words, hne, rfl⟩ := text_of_kernel hpart hcopy
    exact ⟨words, hne, rfl⟩
  | primitive h =>
    have hends : ∀ bytes : Bytes, bytes ≠ [] → (∃ words, bytes = Spelling.text words) →
        t.buffer = e.buffer.push bytes →
        ∃ words, words ≠ [] ∧ t.buffer = e.buffer.push (Spelling.text words) := by
      intro bytes hne hwords ht
      obtain ⟨words, rfl⟩ := hwords
      exact ⟨words, fun hnil => hne (by rw [hnil, text_nil]), ht⟩
    rcases hpart with rfl | rfl
    · exact hends prologueBytes (by decide) text_prologue (written_append h)
    · exact hends epilogueBytes (by decide) text_epilogue (written_append h)

/-- What a run writes is a text, and the fragments are parts of that text. -/
theorem Writing.text {base bound : Nat} {pieces : List Piece} {fragments : List Fragment}
    (h : Writing Machine.backend direction pieces e fragments u)
    (hpieces : ∀ piece ∈ pieces, piece.Readable base bound) (hbase : e.buffer.base = base)
    (hbound : u.buffer.position ≤ bound) :
    ∃ words, u.buffer = e.buffer.push (text words) ∧
      ∀ fragment ∈ fragments, fragment.PartOf words e.buffer.position := by
  induction h with
  | done h => exact ⟨[], h.buffer, nofun⟩
  | @glue pieces fragments p e before t u hbefore hglue hrest ih =>
    have hle := (Writing.glue hbefore hglue hrest).position_le keepsLengths
    have haddress : before.buffer.address = base + e.buffer.position := by
      rw [Code.Buffer.address, hbefore.buffer, hbase]
    have hexpressible : Expressible before.buffer.address p :=
      hpieces _ List.mem_cons_self _ (by omega) (by omega)
    obtain ⟨i, -, hsettled, hs⟩ := spelling_of_glue hexpressible hglue
    generalize ofInstruction hsettled = s at hs
    rw [hbefore.buffer] at hs
    obtain ⟨words, hwords, hfragments⟩ := ih (fun piece hpiece => hpieces piece (.tail _ hpiece))
      (by rw [hs]; exact hbase) hbound
    refine ⟨[s] ++ words, ?_, fun fragment hmem => .after [s] ?_⟩
    · rw [hwords, hs, Code.Buffer.push_push]
      rfl
    · have hpart := hfragments fragment hmem
      rw [hs, Code.Buffer.position_push] at hpart
      simpa using hpart
  | @part pieces fragments p e start stop u haligned hfilled hrest ih =>
    obtain ⟨padding, hstart⟩ := haligned.text
    obtain ⟨own, hne, hstop⟩ := hfilled.text (hpieces _ List.mem_cons_self)
    obtain ⟨words, hwords, hfragments⟩ := ih (fun piece hpiece => hpieces piece (.tail _ hpiece))
      (by rw [hstop, hstart]; exact hbase) hbound
    refine ⟨padding ++ own ++ words, ?_, fun fragment hmem => ?_⟩
    · rw [hwords, hstop, hstart, Code.Buffer.push_push, Code.Buffer.push_push, text_append,
        text_append, List.append_assoc]
    · rcases List.mem_cons.1 hmem with rfl | hmem
      · refine ⟨padding, own, words, rfl, hne, ?_, ?_⟩
        · dsimp only
          rw [hstart, Code.Buffer.position_push]
        · dsimp only
          rw [hstop, Code.Buffer.position_push, Nat.add_sub_cancel_left]
      · refine .after (padding ++ own) ?_
        have hpart := hfragments fragment hmem
        rw [hstop, hstart, Code.Buffer.position_push, Code.Buffer.position_push] at hpart
        rwa [text_append, List.length_append, ← Nat.add_assoc]

/-! ## The pieces of a routine -/

/-- A request of a chain that is in range can be encoded anywhere in the routine. -/
theorem expressible_of_request {targets : CallChain.Targets} {base bound : Nat} {p : Primitive}
    (hp : CallChain.IsRequest targets p) (hrange : Machine.InRange base bound p)
    (hreach : bound + 5 ≤ 2 ^ 31) (hx4 : targets.x4 < 2 ^ 64) (hx8 : targets.x8 < 2 ^ 64)
    {ip : Nat} (hlow : base ≤ ip) (hhigh : ip ≤ base + bound) : Expressible ip p := by
  cases hp with
  | load value => trivial
  | shift amount => exact hrange
  | output h => exact h
  | lut h => exact h
  | call h =>
    obtain ⟨hle, hge⟩ := hrange
    refine ⟨?_, reaches_of_near (by omega) (by omega)⟩
    rcases h with rfl | rfl
    · exact hx4
    · exact hx8

/-- The glue of a routine: loads of loop bounds, and the requests of its chain. -/
theorem glue_of_mem {lib : Library} {size : Nat} {schedule : Schedule} {requests : List Primitive}
    {p : Primitive}
    (h : Piece.glue p ∈ baseCases lib ++ body lib size schedule requests ++ [.part .epilogue]) :
    (∃ bound, p = .load .loopCounter bound) ∨ p ∈ requests := by
  simp only [baseCases, body, Piece.loadBound, List.mem_append, List.mem_cons, List.mem_flatMap,
    List.mem_map, List.not_mem_nil, reduceCtorEq, Piece.glue.injEq, or_false, false_or] at h
  rcases h with (rfl | ⟨step, -, h⟩) | ⟨q, hq, rfl⟩
  · exact .inl ⟨_, rfl⟩
  · rcases List.mem_append.1 h with h | h
    · cases hreload : step.reload with
      | none => simp [hreload] at h
      | some bound =>
        simp only [hreload, Option.map_some, Option.toList_some, List.mem_singleton,
          Piece.loadBound, Piece.glue.injEq] at h
        exact .inl ⟨_, h⟩
    · cases List.mem_singleton.1 h
  · exact .inr hq

theorem primitive_of_part {lib : Library} {size : Nat} {steps : List Step} {part : Part}
    (h : part ∈ parts lib size steps) {p : Primitive} (hcontent : part.content = .primitive p) :
    p = .prologue ∨ p = .epilogue := by
  simp only [parts, List.mem_append, List.mem_cons, List.mem_map, List.not_mem_nil,
    or_false] at h
  rcases h with ((rfl | rfl | rfl | rfl) | ⟨step, -, rfl⟩) | rfl | rfl <;> cases hcontent
  · exact .inl rfl
  · exact .inr rfl

/-- Every piece of a routine is a text if the requests of its chain can be encoded. -/
theorem readable_of_mem {base bound size : Nat} {schedule : Schedule} {requests : List Primitive}
    (hrequests : ∀ p ∈ requests, ∀ ip, base ≤ ip → ip ≤ base + bound → Expressible ip p)
    {piece : Piece} (h : piece ∈ baseCases Machine.kernels ++
      body Machine.kernels size schedule requests ++ [.part .epilogue]) :
    piece.Readable base bound := by
  cases piece with
  | glue p =>
    intro ip hlow hhigh
    rcases glue_of_mem h with ⟨_, rfl⟩ | hmem
    · trivial
    · exact hrequests p hmem ip hlow hhigh
  | part p =>
    have hpart : p ∈ parts Machine.kernels size schedule.steps := by
      rw [← filterMap_part_pieces Machine.kernels size schedule requests]
      exact List.mem_filterMap.2 ⟨_, h, rfl⟩
    obtain ⟨name, content, boundary⟩ := p
    cases content with
    | kernel t values => exact template_mem_of_part hpart rfl
    | primitive p => exact primitive_of_part hpart rfl

end SplitRadix.Routine

namespace SplitRadix.Generator

open Target Routine Leaf Machine

/-- The targets of the calls of a routine at `base`. -/
def callTargets (r : Routine) (base : Nat) : CallChain.Targets :=
  ⟨base + r.x4Offset, base + r.x8Offset⟩

/-- The chain of a routine. -/
def chainScript (g : Generation Unit) (request : Request) (r : Routine) :
    Except (Failure GenerateError) CallChain.Summary × Array CallChain.Item :=
  CallChain.script g.plan.parameters (callTargets r g.plan.region.base)
    (Decomposition.postOrder request.leaf request.size 0 ++ [.sentinel])

/-- What the chain of a routine asks for. -/
def chainRequests (g : Generation Unit) (request : Request) (r : Routine) : List Primitive :=
  CallChain.requests (chainScript g request r).2.toList

/-- A generation for the x86-64 target that gave the routine `r`. Its calls go to the base cases of
the routine, and everything in it can be encoded where it is. -/
inductive Assembled (g : Generation Unit) (request : Request) (r : Routine) (u : Generation Unit) :
    Prop where
  | intro {schedule : Schedule} {chain : CallChain.Summary} {start stop : Emission Unit}
    (hchain : (chainScript g request r).1 = .ok chain)
    (hglue : ∀ p ∈ chainRequests g request r, ∀ ip, g.plan.region.base ≤ ip →
      ip ≤ g.plan.region.base + r.length → Expressible ip p)
    (hstart : start.buffer = .start g.plan.region)
    (hwriting : Writing Machine.backend request.direction (baseCases Machine.kernels ++
      body Machine.kernels request.size schedule (chainRequests g request r) ++
      [.part .epilogue]) start r.fragments stop)
    (hlength : r.length = stop.buffer.position)
    (hplan : u.plan = { g.plan with region := stop.buffer.overlay g.plan.region })

theorem completed_of_machine {g u : Generation Unit} {request : Request} {r : Routine}
    (hbackend : g.generator.backend = Machine.backend)
    (h : (generate request).result g = (.ok r, u)) : Completed g request r u := by
  have hlib : g.generator.backend.kernels.validate = .ok () := by
    rw [hbackend]
    exact kernels_validate
  exact completed_of_generate hlib h

/-- A routine is shorter than the reach of a call. -/
theorem length_lt_of_generate {g u : Generation Unit} {request : Request} {r : Routine}
    (hbackend : g.generator.backend = Machine.backend)
    (h : (generate request).result g = (.ok r, u)) : r.length + 5 ≤ 2 ^ 31 := by
  cases generate_ensures.of_ok h with
  | routine hattempt _ _ _ =>
    have hle := (hattempt.length_le hbackend).1
    cases hattempt with
    | written hp _ _ _ _ =>
      have := capacity_machine_lt (count_lt_of_isSupported hp.supported)
      omega

theorem assembled_of_generate {g u : Generation Unit} {request : Request} {r : Routine}
    (hbackend : g.generator.backend = Machine.backend)
    (h : (generate request).result g = (.ok r, u)) : Assembled g request r u := by
  have hreach := length_lt_of_generate hbackend h
  obtain @⟨nodes, _, schedule, chain, start, stop, hp, hschedule, hbuffer, -, hwritten, hplan⟩ :=
    completed_of_machine hbackend h
  rw [hbackend] at hwritten
  obtain ⟨-, hsize, hleaf, -⟩ := validate_eq_ok.1 hp.valid
  obtain ⟨a, b, ha, hb, -, -, hmax⟩ := Transform.isSupported_iff.1 hp.supported
  obtain ⟨⟨bytes, hbytes⟩, hlaid⟩ := hwritten.laid keepsLengths
  have hentry := hp.displacement_ne_none
  rw [hsize] at hlaid
  rw [hp.nodes_eq.1] at hwritten hentry
  obtain @⟨x4, x8, prologue, rest, ⟨x4Address, x8Address⟩, _, _, based, exit, _, hbased, hx4, hx8,
    hchain, hbody, hexit, -⟩ := hwritten
  have hbase : based.buffer.base = g.plan.region.base := by
    obtain ⟨more, hmore⟩ := (hbased.laid keepsLengths).1
    rw [hmore, Code.Buffer.base_push, hbuffer]
    rfl
  rw [Code.Buffer.addressOf, hbase] at hx4 hx8
  obtain ⟨rfl, hbound4⟩ := Word.add_eq_ok.1 hx4
  obtain ⟨rfl, hbound8⟩ := Word.add_eq_ok.1 hx8
  -- the base cases lie inside the routine
  obtain ⟨hfirst, hlies⟩ := List.forall₂_cons.1 hlaid.lies
  obtain ⟨hsecond, -⟩ := List.forall₂_cons.1 hlies
  have hinside := hfirst.inside
  have hinside' := hsecond.inside
  rw [Code.Buffer.length_written] at hinside hinside'
  have hnodes : CallChain.beforeSentinel
      (Decomposition.postOrder request.leaf request.size 0 ++ [.sentinel]) =
      Decomposition.postOrder (2 ^ b) (2 ^ a) 0 := by
    rw [CallChain.beforeSentinel_postOrder, ha, hb]
  have hcalls : ∀ offset, offset ≤ stop.buffer.position →
      InRange g.plan.region.base stop.buffer.position (.call (g.plan.region.base + offset)) :=
    fun offset hoffset => ⟨by omega, by omega⟩
  let targets : CallChain.Targets := ⟨g.plan.region.base + x4.offset, g.plan.region.base + x8.offset⟩
  have hrange := @CallChain.script_supported _ _ _ hmax _ hnodes hentry targets _ _
    (hcalls x4.offset (by omega)) (hcalls x8.offset (by omega))
  have hrequests := (CallChain.script_requests hchain).1
  rw [hsize] at hbody
  refine .intro hchain (fun p hmem ip hlow hhigh => ?_) hbuffer
    ((hbased.append hbody).append (writing_of_exit hexit)) rfl hplan
  exact expressible_of_request (hrequests p hmem) (hrange.1 p hmem) hreach hbound4 hbound8 hlow
    hhigh

/-- The code of a routine is a text, and its fragments are parts of that text, in order. -/
theorem Assembled.text {g u : Generation Unit} {request : Request} {r : Routine}
    (h : Assembled g request r u) :
    ∃ words, r.code u.plan.region.bytes = .ok (Spelling.text words) ∧
      (Spelling.text words).length = r.length ∧ words ≠ [] ∧
      (r.fragments.Pairwise fun a b => a.offset + a.length ≤ b.offset) ∧
      ∀ fragment ∈ r.fragments, fragment.PartOf words 0 := by
  obtain ⟨-, hglue, hstart, hwriting, hlength, hplan⟩ := h
  obtain ⟨words, hwords, hfragments⟩ := hwriting.text (fun piece => readable_of_mem hglue)
    (by rw [hstart]; rfl) (Nat.le_of_eq hlength.symm)
  rw [hstart] at hwords
  have hwritten : (Spelling.text words).length = r.length := by
    rw [hlength, hwords, Code.Buffer.position_push]
    exact (Nat.zero_add _).symm
  have hne : words ≠ [] := by
    have hnames := hwriting.names
    rw [filterMap_part_pieces] at hnames
    obtain ⟨first, rest, hfirst, -⟩ := List.map_eq_cons_iff.1 hnames
    obtain ⟨before, own, after, hsplit, hown, -⟩ := hfragments first (by simp [hfirst])
    simp [hsplit, hown]
  rw [hstart] at hfragments
  refine ⟨words, ?_, hwritten, hne, (hwriting.laid keepsLengths).2.ordered, hfragments⟩
  rw [hplan, Routine.code, if_pos]
  · rw [← hwritten]
    simp [Code.Buffer.overlay, hwords]
  · rw [← hwritten]
    simp [Code.Buffer.overlay, hwords]

end SplitRadix.Generator

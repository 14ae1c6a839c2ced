import SplitRadix.Proofs.ChainText
import SplitRadix.Proofs.Export
import SplitRadix.Proofs.Simulation

/-!
# Routines do not depend on where they lie

A routine holds no address. Its instructions are placed one by one at the address where they go, and
the targets of its calls are addresses too; but a call holds the distance to its target, which is the
same wherever the routine lies. Padding depends on the address as well, though only on where it lies
between two fetch boundaries. So two routines in regions that start alike between boundaries are the
same bytes, and only the address of the entry differs.

* `Primitive.Relocated`: requests that differ in the addresses of their calls.
* `script_relocated`: what two chains ask for.
* `Writing.relocated`: two runs at different bases.
* `position_independence`: the same routine at two places.
-/

namespace SplitRadix

open Target Kernel Leaf Machine
open Transform (Parameters)

/-- The second primitive asks at `base'` for what the first one asks for at `base`. -/
inductive Target.Primitive.Relocated (base base' : Nat) : Primitive → Primitive → Prop where
  | same {p : Primitive} (h : ∀ target, p ≠ .call target) : Relocated base base' p p
  | call (offset : Nat) : Relocated base base' (.call (base + offset)) (.call (base' + offset))

variable {base base' : Nat}

/-! ## Chains -/

namespace CallChain

/-- Two drafts that differ in the addresses of their calls. -/
structure Draft.Relocated (base base' : Nat) (d d' : Draft) : Prop where
  registers : d'.registers = d.registers
  summary : d'.summary = d.summary
  requests : List.Forall₂ (Primitive.Relocated base base') d.requests d'.requests

variable {params : Parameters} {x4 x8 : Nat}

theorem Draft.Relocated.change {d d' : Draft} (h : d.Relocated base base' d') {c : Option Primitive}
    (hc : ∀ target, c ≠ some (.call target)) :
    (d.change c).Relocated base base' (d'.change c) where
  registers := by rw [change_registers, change_registers, h.registers]
  summary := by cases c <;> simp [Draft.change, h.summary]
  requests := by
    rw [requests_change, requests_change]
    refine List.rel_append h.requests ?_
    cases c with
    | none => exact .nil
    | some p => exact .cons (.same fun target heq => hc target (heq ▸ rfl)) .nil

theorem update_relocated {p : Primitive} (hp : ∀ target, p ≠ .call target) :
    (update p).Simulates (Draft.Relocated base base') (update p) :=
  fun _ _ h => ⟨rfl, h.change fun target heq => hp target (Option.some.inj heq)⟩

theorem elide_relocated : elide.Simulates (Draft.Relocated base base') elide :=
  fun _ _ h => ⟨rfl, @Draft.Relocated.change _ _ _ _ h none nofun⟩

theorem adjust_relocated (role : Role) (delta : Int) :
    (adjust role delta).Simulates (Draft.Relocated base base') (adjust role delta) := by
  unfold adjust
  split
  · exact elide_relocated
  · exact (Action.Simulates.ofExcept _).bind fun _ => update_relocated nofun

theorem resize_relocated (leaf previous : Nat) (node : Node) :
    (resize leaf previous node).Simulates (Draft.Relocated base base')
      (resize leaf previous node) := by
  unfold resize
  split
  · exact update_relocated nofun
  · exact elide_relocated

theorem loadSize_relocated (node : Node) :
    (loadSize node).Simulates (Draft.Relocated base base') (loadSize node) :=
  (Action.Simulates.ofExcept _).bind fun _ => update_relocated nofun

theorem callNode_relocated (leaf x4 x8 : Nat) (node : Node) (lut : Nat) :
    (callNode leaf ⟨base + x4, base + x8⟩ node lut).Simulates (Draft.Relocated base base')
      (callNode leaf ⟨base' + x4, base' + x8⟩ node lut) := by
  intro d d' h
  refine ⟨rfl, ?_⟩
  show (d.call leaf ⟨base + x4, base + x8⟩ node lut).Relocated base base'
    (d'.call leaf ⟨base' + x4, base' + x8⟩ node lut)
  refine ⟨?_, ?_, ?_⟩
  · simp only [Draft.call, h.registers]
  · simp only [Draft.call, h.summary]
  · rw [Draft.requests_call, Draft.requests_call]
    refine List.rel_append h.requests (.cons ?_ .nil)
    unfold baseCase
    split
    · exact .call x4
    · exact .call x8

theorem visit_relocated (params : Parameters) (x4 x8 : Nat) (node : Node) :
    (visit params ⟨base + x4, base + x8⟩ node).Simulates (Draft.Relocated base base')
      (visit params ⟨base' + x4, base' + x8⟩ node) := by
  unfold visit
  refine (Action.Simulates.lift _).bind fun found => ?_
  cases found with
  | none => exact .ofExcept (.error _)
  | some lut =>
    refine .get fun d d' h => ?_
    dsimp only
    rw [h.registers]
    have hrest (before : Registers) : Action.Simulates (Draft.Relocated base base') (do
          adjust .lut (← Word.subSigned (Word.toSigned lut) (Word.toSigned before.lut))
          callNode params.leaf ⟨base + x4, base + x8⟩ node lut : Script Unit) (do
          adjust .lut (← Word.subSigned (Word.toSigned lut) (Word.toSigned before.lut))
          callNode params.leaf ⟨base' + x4, base' + x8⟩ node lut) :=
      (Action.Simulates.lift _).bind fun _ => (adjust_relocated _ _).bind fun _ =>
        callNode_relocated params.leaf x4 x8 node lut
    split
    · exact (loadSize_relocated node).bind fun _ => hrest _
    · refine (Action.Simulates.lift _).bind fun _ => (Action.Simulates.lift _).bind fun _ => ?_
      exact (adjust_relocated _ _).bind fun _ => (resize_relocated _ _ _).bind fun _ => hrest _

/-- Chains for the same nodes at two bases differ in the addresses of their calls. -/
theorem script_relocated (params : Parameters) (x4 x8 : Nat) (nodes : List Node) :
    (script params ⟨base' + x4, base' + x8⟩ nodes).1 =
        (script params ⟨base + x4, base + x8⟩ nodes).1 ∧
      List.Forall₂ (Primitive.Relocated base base')
        (requests (script params ⟨base + x4, base + x8⟩ nodes).2.toList)
        (requests (script params ⟨base' + x4, base' + x8⟩ nodes).2.toList) := by
  obtain ⟨hresult, hdrafts⟩ := Action.Simulates.forM (visit_relocated params x4 x8)
    (nodes.takeWhile fun node => !node.isSentinel) {} {} ⟨rfl, rfl, .nil⟩
  refine ⟨?_, hdrafts.requests⟩
  unfold script
  dsimp only
  rw [hresult, hdrafts.summary]

end CallChain

/-! ## What is written -/

/-- The same was written at `base` and at `base'`. -/
structure Code.Buffer.Relocated (base base' : Nat) (a b : Code.Buffer) : Prop where
  base : a.base = base
  base' : b.base = base'
  written : b.written = a.written

namespace Code.Buffer.Relocated

variable {a b : Code.Buffer}

theorem position (h : a.Relocated base base' b) : b.position = a.position := by
  rw [← length_written, ← length_written, h.written]

theorem push (h : a.Relocated base base' b) (bytes : Bytes) :
    (a.push bytes).Relocated base base' (b.push bytes) :=
  ⟨h.base, h.base', by rw [written_push, written_push, h.written]⟩

/-- Where the bases lie alike between two boundaries, the padding is the same. -/
theorem padding (h : a.Relocated base base' b) {boundary bias n m : Nat}
    (hgrid : base' % boundary = base % boundary) (hn : a.paddingFor boundary bias = .ok n)
    (hm : b.paddingFor boundary bias = .ok m) : m = n := by
  obtain ⟨-, -, rfl⟩ := paddingFor_eq_ok.1 hn
  obtain ⟨-, -, rfl⟩ := paddingFor_eq_ok.1 hm
  have hplace : (base' + a.position + bias) % boundary = (base + a.position + bias) % boundary := by
    rw [Nat.add_assoc, Nat.add_assoc, Nat.add_mod, hgrid, ← Nat.add_mod]
  rw [address, address, h.base, h.base', h.position, hplace]

end Code.Buffer.Relocated

namespace Machine

/-- A distance does not depend on where its ends lie. -/
theorem distance_relocated (base base' position length offset : Nat) :
    distance (base' + position) length (base' + offset) =
      distance (base + position) length (base + offset) := by
  unfold distance
  congr 2
  omega

/-- The same request is assembled to the same bytes at two bases. No memory lies at address zero, so
that no call goes there. -/
theorem assemble_relocated {p q : Primitive} (h : p.Relocated base base' q) (hbase : 0 < base)
    (hbase' : 0 < base') {position : Nat} (hp : Expressible (base + position) p) :
    ∃ i j, glueInstruction p = some i ∧ glueInstruction q = some j ∧
      assemble (base' + position) [j] = assemble (base + position) [i] := by
  cases h with
  | same hcall =>
    obtain ⟨i, hi, -⟩ := hp.instruction
    refine ⟨i, i, hi, hi, ?_⟩
    have hplain : ∀ target, i ≠ .call target := by
      intro target heq
      subst heq
      cases means_of_glueInstruction hi
      exact hcall target rfl
    rw [assemble_of_ne_call hplain, assemble_of_ne_call hplain]
    cases means_of_glueInstruction hi with
    | call target => exact absurd rfl (hplain target)
    | _ => rfl
  | call offset =>
    have hreach : reaches (base + position) (base + offset) = true := hp.2
    have hreach' : reaches (base' + position) (base' + offset) = true := by
      rw [reaches, distance_relocated base]
      exact hreach
    refine ⟨_, _, rfl, rfl, ?_⟩
    rw [assemble_call (resolveLone_call _ (by omega)) hreach,
      assemble_call (resolveLone_call _ (by omega)) hreach', Instruction.encode, Instruction.encode,
      distance_relocated base]

theorem emit_relocated {p q : Primitive} (h : p.Relocated base base' q) (hbase : 0 < base)
    (hbase' : 0 < base') {e f t u : Emission Unit} (hplace : e.buffer.Relocated base base' f.buffer)
    (hp : Expressible e.buffer.address p) (ht : (emitPrimitive p).result e = (.ok (), t))
    (hu : (emitPrimitive q).result f = (.ok (), u)) :
    t.buffer.Relocated base base' u.buffer := by
  have haddress : e.buffer.address = base + e.buffer.position := by
    rw [Code.Buffer.address, hplace.base]
  have haddress' : f.buffer.address = base' + e.buffer.position := by
    rw [Code.Buffer.address, hplace.base', hplace.position]
  rw [haddress] at hp
  obtain ⟨i, j, hi, hj, hsame⟩ := assemble_relocated h hbase hbase' hp
  rw [result_glue hi] at ht
  rw [result_glue hj] at hu
  rw [((emitInstruction_ensures i).of_ok ht).2, ((emitInstruction_ensures j).of_ok hu).2, haddress,
    haddress', hsame]
  exact hplace.push _

end Machine

/-- A kernel has one copy for a direction and the values in its fields. -/
theorem Kernel.Template.Specialised.unique {t : Template} {direction : Direction}
    {values : List UInt32} {a b : Bytes} (ha : t.Specialised direction values a)
    (hb : t.Specialised direction values b) : a = b := by
  apply List.ext_getElem?
  intro i
  by_cases hflip : i ∈ t.flips
  · rw [ha.flip i hflip, hb.flip i hflip]
  · exact ha.agree hb hflip

namespace Routine

/-! ## Runs at two bases -/

/-- The same piece for two bases. -/
inductive Piece.Relocated (base base' : Nat) : Piece → Piece → Prop where
  | part (p : Part) : Relocated base base' (.part p) (.part p)
  | glue {p q : Primitive} (h : p.Relocated base base' q) : Relocated base base' (.glue p) (.glue q)

variable {direction : Direction} {e f t u : Emission Unit}

theorem Aligned.relocated (hgrid : base' % fetchAlignment = base % fetchAlignment)
    {boundary : Option Nat} (h : e.buffer.Relocated base base' f.buffer)
    (ht : Aligned Machine.backend boundary e t) (hu : Aligned Machine.backend boundary f u) :
    t.buffer.Relocated base base' u.buffer := by
  cases ht with
  | free ht =>
    cases hu with
    | free hu =>
      rw [ht.buffer, hu.buffer]
      exact h
  | padded hbefore ht hafter =>
    cases hu with
    | padded hbefore' hu hafter' =>
      obtain ⟨hn, -, ht⟩ := (alignCursor_ensures _).of_ok ht
      obtain ⟨hm, -, hu⟩ := (alignCursor_ensures _).of_ok hu
      rw [hbefore.buffer] at hn ht
      rw [hbefore'.buffer] at hm hu
      rw [hafter.buffer, hafter'.buffer, ht, hu, h.padding hgrid hn hm]
      exact h.push _

theorem Filled.relocated {part : Part} {bound : Nat}
    (hpart : (Piece.part part).Readable base bound) (h : e.buffer.Relocated base base' f.buffer)
    (ht : Filled Machine.backend direction part.content e t)
    (hu : Filled Machine.backend direction part.content f u) :
    t.buffer.Relocated base base' u.buffer := by
  obtain ⟨name, content, boundary⟩ := part
  cases ht with
  | kernel _ _ ht =>
    cases hu with
    | kernel _ _ hu =>
      rw [ht.unique hu]
      exact h.push _
  | primitive ht =>
    cases hu with
    | primitive hu =>
      rcases hpart with rfl | rfl
      · rw [written_append ht, written_append hu]
        exact h.push _
      · rw [written_append ht, written_append hu]
        exact h.push _

/-- The same pieces at two bases give the same fragments and the same bytes. -/
theorem Writing.relocated (hgrid : base' % fetchAlignment = base % fetchAlignment)
    (hbase : 0 < base) (hbase' : 0 < base') {bound : Nat} {pieces pieces' : List Piece}
    {fragments others : List Fragment} (h : e.buffer.Relocated base base' f.buffer)
    (hpieces : List.Forall₂ (Piece.Relocated base base') pieces pieces')
    (hreadable : ∀ piece ∈ pieces, piece.Readable base bound)
    (ht : Writing Machine.backend direction pieces e fragments t) (hbound : t.buffer.position ≤ bound)
    (hu : Writing Machine.backend direction pieces' f others u) :
    others = fragments ∧ t.buffer.Relocated base base' u.buffer := by
  induction ht generalizing pieces' f others with
  | done ht =>
    cases hpieces
    cases hu with
    | done hu =>
      rw [ht.buffer, hu.buffer]
      exact ⟨rfl, h⟩
  | @glue pieces fragments p e before _ t hbefore hglue hrest ih =>
    have hle := (Writing.glue hbefore hglue hrest).position_le keepsLengths
    obtain ⟨hfirst, hrestReadable⟩ := List.forall_mem_cons.1 hreadable
    cases hpieces with
    | cons hpiece hpieces =>
      cases hpiece with
      | glue hprimitive =>
        cases hu with
        | glue hbefore' hglue' hu =>
          rw [← hbefore.buffer, ← hbefore'.buffer] at h
          have haddress : before.buffer.address = base + e.buffer.position := by
            rw [Code.Buffer.address, h.base, hbefore.buffer]
          have hp : Expressible before.buffer.address p := hfirst _ (by omega) (by omega)
          have hafter := emit_relocated hprimitive hbase hbase' h hp hglue hglue'
          exact ih hafter hpieces hrestReadable hbound hu
  | @part pieces fragments p e start stop t haligned hfilled hrest ih =>
    obtain ⟨hfirst, hrestReadable⟩ := List.forall_mem_cons.1 hreadable
    cases hpieces with
    | cons hpiece hpieces =>
      cases hpiece with
      | part =>
        cases hu with
        | part haligned' hfilled' hu =>
          have hstart := haligned.relocated hgrid h haligned'
          have hstop := hfilled.relocated hfirst hstart hfilled'
          obtain ⟨rfl, hend⟩ := ih hstop hpieces hrestReadable hbound hu
          rw [hstart.position, hstop.position]
          exact ⟨rfl, hend⟩

/-- Apart from the calls of its chain, a routine has the same pieces at both bases. -/
theorem pieces_relocated (lib : Library) (size : Nat) (schedule : Schedule)
    {requests others : List Primitive}
    (h : List.Forall₂ (Primitive.Relocated base base') requests others) :
    List.Forall₂ (Piece.Relocated base base')
      (baseCases lib ++ body lib size schedule requests ++ [.part .epilogue])
      (baseCases lib ++ body lib size schedule others ++ [.part .epilogue]) := by
  have hfront : List.Forall₂ (Piece.Relocated base base') (front lib size schedule)
      (front lib size schedule) := by
    refine List.forall₂_same.2 fun piece hpiece => ?_
    cases piece with
    | part p => exact .part p
    | glue p =>
      have hmem : Piece.glue p ∈ baseCases lib ++ body lib size schedule [] ++ [.part .epilogue] := by
        rw [pieces_eq]
        exact List.mem_append_left _ hpiece
      rcases glue_of_mem hmem with ⟨_, rfl⟩ | hnil
      · exact .glue (.same nofun)
      · cases hnil
  have hglue : List.Forall₂ (Piece.Relocated base base') (requests.map .glue)
      (others.map .glue) := by
    rw [List.forall₂_map_left_iff, List.forall₂_map_right_iff]
    exact h.imp fun _ _ => .glue
  have hlast : List.Forall₂ (Piece.Relocated base base') [.part .epilogue] [.part .epilogue] :=
    .cons (.part _) .nil
  rw [pieces_eq, pieces_eq]
  exact List.rel_append hfront (.cons (.part _) (List.rel_append hglue hlast))

variable {params : Parameters} {schedule : Schedule} {nodes : List Node}
variable {r s : Routine × CallChain.Summary}

/-- Routines written at two bases are the same up to the address of the entry. -/
theorem Written.relocated (hgrid : base' % fetchAlignment = base % fetchAlignment)
    (hbase : 0 < base) (hbase' : 0 < base') (h : e.buffer.Relocated base base' f.buffer)
    (ht : Written Machine.backend params direction schedule nodes e r t)
    (hu : Written Machine.backend params direction schedule nodes f s u)
    (hglue : ∀ p ∈ CallChain.requests (CallChain.script params
      ⟨base + r.1.x4Offset, base + r.1.x8Offset⟩ nodes).2.toList,
      ∀ ip, base ≤ ip → ip ≤ base + r.1.length → Expressible ip p) :
    s.1 = { r.1 with entryAddress := s.1.entryAddress } ∧
      r.1.entryAddress = base + r.1.entryOffset ∧ s.1.entryAddress = base' + r.1.entryOffset ∧
      t.buffer.Relocated base base' u.buffer := by
  obtain @⟨x4, x8, prologue, rest, ⟨x4Address, x8Address⟩, _, chain, based, exit, t,
    hbased, hx4, hx8, hchain, hbody, hexit, hentry⟩ := ht
  obtain @⟨_, _, prologue', rest', ⟨x4Address', x8Address'⟩, _, chain', based', exit', u,
    hbased', hx4', hx8', hchain', hbody', hexit', hentry'⟩ := hu
  have hrun := (hbased.append hbody).append (writing_of_exit hexit)
  have hrun' := (hbased'.append hbody').append (writing_of_exit hexit')
  have hreadable (piece : Piece) := @readable_of_mem base _ params.size schedule _ hglue piece
  -- the base cases lie at the same offsets
  have hparts : List.Forall₂ (Piece.Relocated base base') (baseCases Machine.kernels)
      (baseCases Machine.kernels) := .cons (.part _) (.cons (.part _) .nil)
  have hle := (hbody.append (writing_of_exit hexit)).position_le keepsLengths
  obtain ⟨hsame, hbodies⟩ := hbased.relocated hgrid hbase hbase' h hparts
    (fun piece hmem => hreadable piece (List.mem_append_left _ (List.mem_append_left _ hmem)))
    hle hbased'
  cases hsame
  rw [Code.Buffer.addressOf, hbodies.base] at hx4 hx8 hentry
  rw [Code.Buffer.addressOf, hbodies.base'] at hx4' hx8' hentry'
  obtain ⟨rfl, -⟩ := Word.add_eq_ok.1 hx4
  obtain ⟨rfl, -⟩ := Word.add_eq_ok.1 hx8
  obtain ⟨rfl, -⟩ := Word.add_eq_ok.1 hx4'
  obtain ⟨rfl, -⟩ := Word.add_eq_ok.1 hx8'
  obtain ⟨rfl, -⟩ := Word.add_eq_ok.1 hentry
  obtain ⟨rfl, -⟩ := Word.add_eq_ok.1 hentry'
  -- so the chains differ in the addresses of their calls only
  obtain ⟨hsummary, hrequests⟩ :=
    @CallChain.script_relocated base base' params x4.offset x8.offset nodes
  cases (hsummary.trans hchain).symm.trans hchain'
  obtain ⟨hfragments, hend⟩ := hrun.relocated hgrid hbase hbase' h
    (pieces_relocated _ _ _ hrequests) hreadable (Nat.le_refl _) hrun'
  have hprologue : prologue' = prologue := by
    simp only [List.cons_append, List.nil_append, List.cons.injEq, true_and] at hfragments
    exact hfragments.1
  subst hprologue
  refine ⟨?_, rfl, rfl, hend⟩
  dsimp only
  rw [hfragments, hend.position]

end Routine

namespace Generator

open Routine

/-- A routine of the x86-64 target is the same wherever it lies. In two regions whose bases lie alike
between two fetch boundaries, it has the same description and the same code but for the address of
its entry, which moves with the base, and is exported as the same object. No memory lies at address
zero. -/
theorem position_independence (g h : Generation Unit) (request : Request)
    (hbackend : g.generator.backend = Machine.backend)
    (hbackend' : h.generator.backend = Machine.backend)
    (hparameters : h.plan.parameters = g.plan.parameters) (hbase : 0 < g.plan.region.base)
    (hbase' : 0 < h.plan.region.base)
    (hgrid : h.plan.region.base % Machine.backend.fetchAlignment =
      g.plan.region.base % Machine.backend.fetchAlignment) {r s : Routine} {u v : Generation Unit}
    (hr : (generate request).result g = (.ok r, u))
    (hs : (generate request).result h = (.ok s, v)) :
    s = { r with entryAddress := s.entryAddress } ∧
    (s.entryAddress : Int) - r.entryAddress = (h.plan.region.base : Int) - g.plan.region.base ∧
    (∃ code, r.code u.plan.region.bytes = .ok code ∧ s.code v.plan.region.bytes = .ok code) ∧
    ∀ name, ObjectFile.write v.plan.region.bytes s name =
      ObjectFile.write u.plan.region.bytes r name := by
  obtain ⟨-, hexpressible, -, -, -, -⟩ := assembled_of_generate hbackend hr
  obtain @⟨nodes, _, schedule, chain, start, stop, hp, hschedule, hbuffer, -, hwritten, hplan⟩ :=
    completed_of_machine hbackend hr
  obtain @⟨nodes', _, schedule', chain', start', stop', hp', hschedule', hbuffer', -, hwritten',
    hplan'⟩ := completed_of_machine hbackend' hs
  rw [hparameters] at hschedule' hwritten'
  cases hschedule.symm.trans hschedule'
  rw [hp'.nodes_eq.1, hbackend'] at hwritten'
  rw [hp.nodes_eq.1, hbackend] at hwritten
  have hstart : start.buffer.Relocated g.plan.region.base h.plan.region.base start'.buffer := by
    rw [hbuffer, hbuffer']
    exact ⟨rfl, rfl, by rw [Code.Buffer.written_start, Code.Buffer.written_start]⟩
  obtain ⟨hsame, hentry, hentry', hend⟩ :=
    hwritten.relocated hgrid hbase hbase' hstart hwritten' hexpressible
  dsimp only at hsame hentry hentry'
  have hcode := hwritten.code g.plan.region
  have hcode' := hwritten'.code h.plan.region
  rw [hend.written] at hcode'
  rw [hplan, hplan']
  refine ⟨hsame, by omega, ⟨_, hcode, hcode'⟩, fun name => ?_⟩
  rw [ObjectFile.write_of_code hcode, ObjectFile.write_of_code hcode', hsame]
  rfl

/-- The routine of a transform of 32 elements with leaves of 4, in two regions of different lengths
that are 2^32 bytes apart and start off every boundary. -/
theorem position_independence_of_32 :
    let g (base length : Nat) : Generation Unit :=
      { generator := { backend := Machine.backend, own := (), session := .start none }
        plan := { parameters := ⟨32, 4, .ofLeaves 8, Transform.referenceTable 4 3⟩
                  region := .blank base length } }
    ∃ r s u v code, (generate ⟨32, 4, .inverse⟩).result (g 4099 2048) = (.ok r, u) ∧
      (generate ⟨32, 4, .inverse⟩).result (g 4294971395 1800) = (.ok s, v) ∧
      s = { r with entryAddress := s.entryAddress } ∧
      (s.entryAddress : Int) - r.entryAddress = 4294967296 ∧
      r.code u.plan.region.bytes = .ok code ∧ s.code v.plan.region.bytes = .ok code := by
  intro g
  have hok : ((generate ⟨32, 4, .inverse⟩).result (g 4099 2048)).1.isOk = true ∧
      ((generate ⟨32, 4, .inverse⟩).result (g 4294971395 1800)).1.isOk = true := by
    decide +kernel
  rcases hr : (generate ⟨32, 4, .inverse⟩).result (g 4099 2048) with ⟨_ | r, u⟩
  · rw [hr] at hok
    cases hok.1
  rcases hs : (generate ⟨32, 4, .inverse⟩).result (g 4294971395 1800) with ⟨_ | s, v⟩
  · rw [hs] at hok
    cases hok.2
  obtain ⟨hsame, hentry, ⟨code, hcode, hcode'⟩, -⟩ := position_independence (g 4099 2048)
    (g 4294971395 1800) ⟨32, 4, .inverse⟩ rfl rfl rfl (by decide) (by decide) (by decide) hr hs
  have hdistance : (s.entryAddress : Int) - r.entryAddress =
      ((4294971395 : Nat) : Int) - (4099 : Nat) := hentry
  exact ⟨r, s, u, v, code, rfl, rfl, hsame, by omega, hcode, hcode'⟩

end Generator

end SplitRadix

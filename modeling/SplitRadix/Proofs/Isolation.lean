import SplitRadix.Proofs.InPlace
import SplitRadix.Proofs.Simulation
import SplitRadix.Proofs.Wear

/-!
# What a region held before

A routine is written from the start of its region on. It makes no difference to it what the region
held before, and what the region held past its end stays there. The same goes for what a session has
stored and counted before, as long as its counters can take the routine.

* `Machine.simulates`: the x86-64 target looks at nothing but the buffer.
* `Twins`: two generations in memory of the same place and size.
* `Attempt.agree`: twins write the same code, by the same run of their buffers.
* `generation_ignores_contents`: the old contents of a region make no difference.
-/

namespace SplitRadix

open Target

/-! ## The x86-64 target looks at nothing but the buffer -/

namespace Machine

variable {related : Emission Unit → Emission Unit → Prop}

theorem emitInstruction_simulates (hr : SharesBuffer related) (i : Instruction) :
    (emitInstruction i).Simulates related (emitInstruction i) := by
  refine (hr.view Code.Buffer.address).bind fun address => ?_
  dsimp only
  split
  · exact .throw _
  · exact (hr.onBuffer _ _).bind fun _ => .pure ()

theorem emitPrimitive_simulates (hr : SharesBuffer related) (p : Primitive) :
    (emitPrimitive p).Simulates related (emitPrimitive p) := by
  cases p with
  | prologue => exact (hr.onBuffer _ _).bind fun _ => .pure ()
  | epilogue => exact (hr.onBuffer _ _).bind fun _ => .pure ()
  | load role value => exact emitInstruction_simulates hr _
  | add role delta => exact emitInstruction_simulates hr _
  | shift role amount =>
    exact (Action.Simulates.ofExcept _).bind fun i => emitInstruction_simulates hr i
  | call target => exact emitInstruction_simulates hr _

theorem alignCursor_simulates (hr : SharesBuffer related) (bias : Nat) :
    (alignCursor bias).Simulates related (alignCursor bias) := by
  refine (hr.view id).bind fun buffer => (Action.Simulates.lift _).bind fun needed => ?_
  by_cases hneeded : 0 < needed
  · rw [if_pos hneeded]
    refine (hr.onBuffer _ _).bind fun _ => (hr.view Code.Buffer.address).bind fun address => ?_
    exact (hr.noting _).bind fun _ => .pure needed
  · rw [if_neg hneeded]
    exact .pure needed

theorem simulates (hr : SharesBuffer related) : backend.Simulates related backend where
  kernels := rfl
  signMask := rfl
  emit := emitPrimitive_simulates hr
  align := alignCursor_simulates hr

end Machine

theorem Routine.sharesBuffer_noted {σ : Type} : SharesBuffer (@Routine.Noted σ) where
  buffer h := h.buffer
  edit h _ := ⟨rfl, h.own⟩
  note h _ := ⟨h.buffer, h.own⟩

namespace Generator

open Scratch Routine
open Code.Buffer (run start)
open Transform (Parameters)

/-! ## Twins -/

/-- Two generations for the x86-64 target with the same parameters, in memory of the same place and
size, both without a limit on scratch memory. What their regions hold, what was generated before and
what was noted may differ. -/
structure Twins (g h : Generation Unit) : Prop where
  backend : g.generator.backend = Machine.backend ∧ h.generator.backend = Machine.backend
  parameters : h.plan.parameters = g.plan.parameters
  base : h.plan.region.base = g.plan.region.base
  length : h.plan.region.length = g.plan.region.length
  limit : g.generator.session.arena.limit = none ∧ h.generator.session.arena.limit = none

variable {g h t u : Generation Unit} {request : Request} {r : Routine} {chain : CallChain.Summary}

theorem Twins.symm (htwins : Twins g h) : Twins h g :=
  ⟨htwins.backend.symm, htwins.parameters.symm, htwins.base.symm, htwins.length.symm,
    htwins.limit.symm⟩

/-- Twins start to write in the same way. -/
theorem Twins.noted (htwins : Twins g h) (s s' : Session) (event event' : Event) :
    Noted ((g.withSession s).noting event).emission
      ((h.withSession s').noting event').emission := by
  refine ⟨?_, rfl⟩
  show Code.Buffer.start h.plan.region = Code.Buffer.start g.plan.region
  unfold Code.Buffer.start
  rw [htwins.base, htwins.length]

/-- If one of two twins writes a routine, so does the other, and one run of a buffer, as long as the
routine, is written to both regions. -/
theorem Attempt.agree (htwins : Twins g h) (hg : Attempt g request (.ok (r, chain)) t)
    {result : Except (Failure GenerateError) (Routine × CallChain.Summary)}
    (hh : Attempt h request result u) :
    result = .ok (r, chain) ∧ ∃ history,
      let b := (run (start g.plan.region) history).2
      b.position = r.length ∧ t.plan.region = b.overlay g.plan.region ∧
        u.plan.region = b.overlay h.plan.region := by
  cases hg with
  | @written nodes s bound schedule _ e event hp hbound hfits hschedule hwrite =>
    have hvalid : validate h.plan.parameters request = .ok () := htwins.parameters ▸ hp.valid
    rw [htwins.backend.1] at hbound hwrite
    cases hh with
    | refused hrefused =>
      rw [hvalid] at hrefused
      cases hrefused
    | noScratch _ hnodes _ => exact absurd htwins.limit.2 (decompose_of_valid hvalid hnodes).1
    | noBound _ hnone =>
      rw [htwins.backend.2, hbound] at hnone
      cases hnone
    | tooSmall _ hsame hsmall =>
      rw [htwins.backend.2, hbound] at hsame
      cases hsame
      have := htwins.length
      omega
    | noSchedule _ hnone =>
      rw [htwins.parameters, hschedule] at hnone
      cases hnone
    | @written nodes' s' _ schedule' _ f event' hp' _ _ hschedule' hwrite' =>
      have hnodes : nodes'.toList = nodes.toList := hp'.nodes_eq.1.trans hp.nodes_eq.1.symm
      rw [htwins.parameters, hschedule] at hschedule'
      cases hschedule'
      rw [htwins.backend.2, htwins.parameters, hnodes] at hwrite'
      obtain ⟨hresult, hnoted⟩ := Routine.emit_simulates sharesBuffer_noted
        (Machine.simulates sharesBuffer_noted) g.plan.parameters request.direction schedule
        nodes.toList _ _ (htwins.noted s s' event event')
      rw [hwrite, hwrite'] at hresult hnoted
      have hlength : r.length = e.buffer.position := by
        have hlib := Kernel.Library.wellFormed_of_validate Machine.kernels_validate
        cases written_of_emit hlib hwrite
        rfl
      obtain ⟨history, hhistory⟩ := Routine.run_of_emit Machine.writes hwrite
      replace hhistory : e.buffer = (run (start g.plan.region) history).2 := hhistory
      refine ⟨hresult, history, ?_, ?_, ?_⟩
      · rw [hlength, hhistory]
      · rw [← hhistory]
        rfl
      · rw [← hhistory, ← hnoted.buffer]
        rfl

/-! ## Generations -/

/-- A generation gives the routine that its attempt wrote. -/
theorem attempt_of_generate (hr : (generate request).result g = (.ok r, u)) :
    ∃ chain t, (attempt request).result g = (.ok (r, chain), t) ∧
      (conclude request (.ok (r, chain))).result t = (.ok r, u) := by
  rw [result_generate] at hr
  rcases hattempt : (attempt request).result g with ⟨(cause | x) | ⟨r', chain⟩, t⟩
  · rw [hattempt] at hr
    obtain ⟨_, _, _, hr⟩ := Action.result_bind_eq_ok.1 hr
    obtain ⟨_, _, _, hr⟩ := Action.result_bind_eq_ok.1 hr
    obtain ⟨_, _, _, hr⟩ := Action.result_bind_eq_ok.1 hr
    cases hr
  · rw [hattempt] at hr
    cases hr
  · rw [hattempt] at hr
    have hconclude := hr
    obtain ⟨_, _, _, hr⟩ := Action.result_bind_eq_ok.1 hr
    obtain ⟨_, _, _, hr⟩ := Action.result_bind_eq_ok.1 hr
    obtain ⟨_, _, _, hr⟩ := Action.result_bind_eq_ok.1 hr
    obtain ⟨_, _, _, hr⟩ := Action.result_bind_eq_ok.1 hr
    cases hr
    exact ⟨chain, t, rfl, hconclude⟩

theorem sharesCounters_statistics : SharesCounters fun g h : Generation Unit =>
    h.generator.session.statistics = g.generator.session.statistics where
  statistics h := h
  count _ _ := rfl
  release h := h
  note h _ := h

/-- Twins with the same counters give the same routine. -/
theorem Twins.generate_of_statistics (htwins : Twins g h)
    (hstatistics : h.generator.session.statistics = g.generator.session.statistics)
    (hr : (generate request).result g = (.ok r, u)) :
    ∃ v, (generate request).result h = (.ok r, v) := by
  obtain ⟨chain, t, hattempt, hconclude⟩ := attempt_of_generate hr
  rcases hother : (attempt request).result h with ⟨result, w⟩
  have hg := attempt_of_result hattempt
  have hh := attempt_of_result hother
  obtain ⟨rfl, -⟩ := hg.agree htwins hh
  have hsame : w.generator.session.statistics = t.generator.session.statistics := by
    rw [hg.statistics, hh.statistics, hstatistics]
  obtain ⟨hresult, -⟩ := conclude_simulates sharesCounters_statistics request (.ok (r, chain)) t w
    hsame
  rw [hconclude] at hresult
  rw [result_generate, hother]
  exact ⟨((conclude request (.ok (r, chain))).result w).2, Prod.ext hresult rfl⟩

/-- Twins give the same routine, unless the counters of the other one cannot take it. -/
theorem Twins.generate_or_overruns (htwins : Twins g h)
    (hr : (generate request).result g = (.ok r, u)) :
    (∃ v, (generate request).result h = (.ok r, v)) ∨ Overruns h request := by
  cases generate_ensures.of_ok hr with
  | routine hg _ _ _ =>
    rcases hother : (generate request).result h with ⟨f | s, v⟩
    · refine (generate_ensures.of_error hother).failed.imp_left fun ⟨w, hh, _⟩ => ?_
      cases (hg.agree htwins hh).1
    · cases generate_ensures.of_ok hother with
      | routine hh _ _ _ =>
        cases (hg.agree htwins hh).1
        exact .inl ⟨v, rfl⟩

/-- What a region held before makes no difference to a generation: if one of two twins gives a
routine, so does the other, the routine is the same and so is its code. Past the code both regions
hold what they held before. The counters of a session are the one thing of its past that can make a
difference, when they cannot take the routine. -/
theorem generation_ignores_contents {g h : Generation Unit} (htwins : Twins g h)
    (request : Request) :
    let yields (k : Generation Unit) (r : Routine) := ∃ u, (generate request).result k = (.ok r, u)
    (h.generator.session.statistics = g.generator.session.statistics →
      ∀ r, yields g r ↔ yields h r) ∧
    (∀ r, yields g r → yields h r ∨ Overruns h request) ∧
    (∀ r, yields h r → yields g r ∨ Overruns g request) ∧
    ∀ r s u v, (generate request).result g = (.ok r, u) → (generate request).result h = (.ok s, v) →
      s = r ∧ v.plan.region.code r.length = u.plan.region.code r.length ∧
      (∀ i, r.length ≤ i → u.plan.region.bytes[i]? = g.plan.region.bytes[i]?) ∧
      (∀ i, r.length ≤ i → v.plan.region.bytes[i]? = h.plan.region.bytes[i]?) ∧
      u.plan.region.length = g.plan.region.length ∧
      v.plan.region.length = h.plan.region.length := by
  intro yields
  refine ⟨fun hstatistics r => ⟨?_, ?_⟩, ?_, ?_, ?_⟩
  · intro hg
    obtain ⟨u, hr⟩ := hg
    exact htwins.generate_of_statistics hstatistics hr
  · intro hh
    obtain ⟨v, hr⟩ := hh
    exact htwins.symm.generate_of_statistics hstatistics.symm hr
  · intro r hg
    obtain ⟨u, hr⟩ := hg
    exact htwins.generate_or_overruns hr
  · intro r hh
    obtain ⟨v, hr⟩ := hh
    exact htwins.symm.generate_or_overruns hr
  · intro r s u v hr hs
    cases generate_ensures.of_ok hr with
    | routine hg hplan _ _ =>
      cases generate_ensures.of_ok hs with
      | routine hh hplan' _ _ =>
        obtain ⟨hsame, history, hlength, hregion, hregion'⟩ := hg.agree htwins hh
        cases hsame
        have hopened := Code.Buffer.opened_run g.plan.region history
        have hinside := hopened.capacity ▸ hopened.position
        rw [hplan, hplan', hregion, hregion', ← hlength]
        refine ⟨rfl, ?_, fun i hi => ?_, fun i hi => ?_, ?_, ?_⟩
        · rw [Code.Buffer.code_overlay, Code.Buffer.code_overlay]
        · exact Code.Buffer.getElem?_overlay _ _ hi
        · exact Code.Buffer.getElem?_overlay _ _ hi
        · exact Code.Buffer.length_overlay _ hinside
        · exact Code.Buffer.length_overlay _ (htwins.length ▸ hinside)

/-- A transform of 8 elements with leaves of 2, in a new region and in one that holds something else,
in a session that has failed three times. -/
theorem generation_ignores_contents_of_8 :
    let parameters : Parameters := ⟨8, 2, .ofLeaves 4, Transform.referenceTable 2 2⟩
    let g : Generation Unit :=
      { generator := { backend := Machine.backend, own := (), session := .start none }
        plan := { parameters, region := .blank 4099 1455 } }
    let h : Generation Unit :=
      { generator :=
          { backend := Machine.backend
            own := ()
            session := { arena := { limit := none }, statistics := { failures := 3 } } }
        plan := { parameters, region := ⟨4099, List.replicate 1455 7⟩ } }
    Twins g h ∧ g.plan.region.bytes ≠ h.plan.region.bytes ∧
    ∃ r u v, (generate ⟨8, 2, .inverse⟩).result g = (.ok r, u) ∧
      (generate ⟨8, 2, .inverse⟩).result h = (.ok r, v) ∧ r.length < 1455 ∧
      v.plan.region.code r.length = u.plan.region.code r.length ∧
      v.plan.region.bytes[r.length]? = some 7 := by
  intro parameters g h
  have htwins : Twins g h := by
    refine ⟨⟨rfl, rfl⟩, rfl, rfl, ?_, ⟨rfl, rfl⟩⟩
    show (List.replicate 1455 (7 : UInt8)).length = (List.replicate 1455 Region.filler).length
    rw [List.length_replicate, List.length_replicate]
  have hfresh : ¬ Overruns h ⟨8, 2, .inverse⟩ := fun hoverruns =>
    @Overruns.not_within h _ 3 rfl hoverruns (by decide) (by constructor <;> decide)
  have hrun : ((generate ⟨8, 2, .inverse⟩).result g).1.toOption.any (·.length < 1455) = true := by
    decide +kernel
  rcases hr : (generate ⟨8, 2, .inverse⟩).result g with ⟨f | r, u⟩
  · rw [hr] at hrun
    cases hrun
  · rw [hr] at hrun
    have hshort : r.length < 1455 := of_decide_eq_true hrun
    obtain ⟨-, hyields, -, hboth⟩ := generation_ignores_contents htwins ⟨8, 2, .inverse⟩
    obtain ⟨v, hs⟩ := (hyields r ⟨u, hr⟩).resolve_right hfresh
    obtain ⟨-, hcode, -, hrest, -⟩ := hboth r r u v hr hs
    refine ⟨htwins, ?_, r, u, v, rfl, hs, hshort, hcode, ?_⟩
    · decide +kernel
    · rw [hrest r.length (Nat.le_refl _)]
      show (List.replicate 1455 (7 : UInt8))[r.length]? = some 7
      rw [List.getElem?_replicate, if_pos hshort]

end Generator

end SplitRadix

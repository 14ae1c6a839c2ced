import SplitRadix.Machine.Glue
import SplitRadix.Proofs.BufferRuns
import SplitRadix.Proofs.Generation
import SplitRadix.Target.Recorder

/-!
# Writing in place

Whatever a routine does to its buffer it does by appending, aligning and editing what was written.
So the buffer it leaves, also where it fails, is the one that some run of these operations leaves, and
the region holds what the same steps make of its old bytes one after the other. What holds after every
run of a buffer holds of it.

* `Action.Takes`: where an operation can end, put together from its parts.
* `overlay_run`, `replay`: a run, made on the bytes of the region itself.
* `Routine.emit_writes`, `Routine.run_of_emit`: a routine is a run of its buffer, if its target writes
  by such runs.
* `Machine.writes`, `Recorder.writes`: both targets do.
* `Generator.generate_writes`: the region after any generation.
-/

namespace SplitRadix

namespace Action

variable {σ ε α β : Type} {path : σ → σ → Prop}

/-- Wherever the operation starts, `path` leads from there to the state it ends in, with a value or
without. -/
def Takes (act : Action σ ε α) (path : σ → σ → Prop) : Prop := ∀ s, path s (act.result s).2

/-- A path can be empty, and one can be continued by another. -/
structure IsPath (path : σ → σ → Prop) : Prop where
  refl : ∀ s, path s s
  trans : ∀ {s t u}, path s t → path t u → path s u

namespace Takes

/-- An operation that changes nothing. -/
theorem idle (hp : IsPath path) {act : Action σ ε α} (h : ∀ s, (act.result s).2 = s) :
    act.Takes path := by
  intro s
  rw [h s]
  exact hp.refl s

theorem bind (hp : IsPath path) {act : Action σ ε α} {next : α → Action σ ε β}
    (h : act.Takes path) (hn : ∀ a, (next a).Takes path) : (act >>= next).Takes path := by
  intro s
  have hfirst := h s
  rw [result_bind]
  rcases hr : act.result s with ⟨_ | a, t⟩
  · rw [hr] at hfirst
    exact hfirst
  · rw [hr] at hfirst
    exact hp.trans hfirst (hn a t)

/-- A computation that can only fault comes first. -/
theorem lift (hp : IsPath path) {x : Except Fault α} {next : α → Action σ (Failure ε) β}
    (h : ∀ a, x = .ok a → (next a).Takes path) :
    ((liftM x : Action σ (Failure ε) α) >>= next).Takes path := by
  cases x with
  | error _ => exact idle hp fun _ => rfl
  | ok a => exact h a rfl

theorem forM (hp : IsPath path) {act : α → Action σ ε Unit} (h : ∀ a, (act a).Takes path) :
    ∀ l : List α, (l.forM act).Takes path
  | [] => idle hp fun _ => rfl
  | a :: l => (h a).bind hp fun _ => forM hp h l

theorem mapM (hp : IsPath path) {act : α → Action σ ε β} (h : ∀ a, (act a).Takes path)
    (l : List α) : (l.mapM act).Takes path := by
  induction l with
  | nil => exact idle hp fun _ => rfl
  | cons a l ih =>
    rw [List.mapM_cons]
    exact (h a).bind hp fun _ => ih.bind hp fun _ => idle hp fun _ => rfl

end Takes

end Action

/-! ## Runs on the bytes of a region -/

namespace Code.Buffer

/-- A step made on the bytes of a region, with the cursor before it and after it. -/
def Step.inPlace : Nat × Bytes → Step → Nat × Bytes
  | (cursor, memory), ⟨op, .ok n⟩ =>
    (cursor + (Step.piece ⟨op, .ok n⟩).length, op.inPlace cursor n memory)
  | place, ⟨_, .error _⟩ => place

/-- The steps of a run made on the bytes of a region, from its start on. -/
def replay (steps : List Step) (memory : Bytes) : Bytes := (steps.foldl Step.inPlace (0, memory)).2

theorem Performed.inPlace {b c : Buffer} {op : Operation}
    {outcome : Except (Failure BufferError) Nat} (h : Performed b op outcome c) (region : Region) :
    Step.inPlace (b.position, (b.overlay region).bytes) ⟨op, outcome⟩ =
      (c.position, (c.overlay region).bytes) := by
  cases outcome with
  | error f =>
    rw [h.eq_of_error]
    rfl
  | ok n =>
    show (_, op.inPlace b.position n (b.overlay region).bytes) = _
    rw [← h.overlay region]
    cases h with
    | appended _ => rfl
    | aligned _ _ => rfl
    | edited hwritten _ =>
      rw [position_edited hwritten]
      rfl

/-- What a run does to its buffer, its steps do to the region itself. -/
theorem overlay_run (history : List Operation) (b : Buffer) (region : Region) :
    (run b history).1.foldl Step.inPlace (b.position, (b.overlay region).bytes) =
      ((run b history).2.position, ((run b history).2.overlay region).bytes) := by
  induction history generalizing b with
  | nil => rfl
  | cons op rest ih =>
    rw [run, List.foldl_cons, (performed op b).inPlace region]
    exact ih _

/-- A buffer that has written nothing leaves every region as it is. -/
theorem overlay_start (region other : Region) : (start region).overlay other = other := by
  rw [overlay, written_start, List.nil_append]
  rfl

/-- The code that the buffer has written is at the start of the region. -/
theorem code_overlay (b : Buffer) (region : Region) :
    (b.overlay region).code b.position = b.written := by
  rw [Region.code, overlay, ← length_written, List.take_left]

theorem bytes_overlay_run (history : List Operation) (region other : Region) :
    ((run (start region) history).2.overlay other).bytes =
      replay (run (start region) history).1 other.bytes := by
  have hrun := overlay_run history (start region) other
  rw [overlay_start] at hrun
  exact (congrArg Prod.snd hrun).symm

theorem run_append (first second : List Operation) (b : Buffer) :
    (run b (first ++ second)).2 = (run (run b first).2 second).2 := by
  induction first generalizing b with
  | nil => rfl
  | cons op rest ih => exact ih _

/-- A run leads from one buffer to the other. -/
def Reaches (b c : Buffer) : Prop := ∃ history, c = (run b history).2

theorem isPath_reaches : Action.IsPath Reaches where
  refl _ := ⟨[], rfl⟩
  trans := by
    rintro b _ _ ⟨first, rfl⟩ ⟨second, rfl⟩
    exact ⟨first ++ second, (run_append first second b).symm⟩

theorem perform_reaches (op : Operation) : op.perform.Takes Reaches := fun _ => ⟨[op], rfl⟩

/-- The buffer that an edit leaves, whether it succeeds or not. -/
theorem edit_reached {ε α : Type} (change : Action Bytes (Failure ε) α) (start length : Nat)
    (b : Buffer) : ((edit start length change).result b).2 =
      if start + length < 2 ^ 64 ∧ start + length ≤ b.position then
        holding b.base b.capacity (Bytes.overwrite b.written start
          (change.result (Bytes.slice b.written start length)).2)
      else b := by
  unfold edit
  by_cases hword : start + length < 2 ^ 64
  · rw [Word.add_of_lt hword]
    by_cases hwritten : start + length ≤ b.position
    · rw [if_pos ⟨hword, hwritten⟩]
      exact congrArg Prod.snd (if_pos hwritten)
    · rw [if_neg fun h => hwritten h.2]
      exact congrArg Prod.snd (if_neg hwritten)
  · have hover : Word.add start length = .error .addOverflow := if_neg hword
    rw [hover, if_neg fun h => hword h.1]
    rfl

/-- A change of bytes that keeps their number is an edit, whether it succeeds or not. -/
theorem edit_reaches {ε α : Type} {change : Action Bytes (Failure ε) α}
    (h : change.Takes fun bytes changed => changed.length = bytes.length) (start length : Nat) :
    (edit start length change).Takes Reaches := by
  intro b
  let e : Edit := ⟨start, length, fun bytes => (change.result bytes).2, h⟩
  let whole : Action Bytes (Failure BufferError) Unit := modify e.change
  have hperform : ((Operation.edit e).perform.result b).2 =
      ((edit start length whole).result b).2 := by
    show ((edit start length whole >>= fun _ => pure length).result b).2 = _
    rw [Action.result_bind]
    rcases (edit start length whole).result b with ⟨_ | _, _⟩ <;> rfl
  refine ⟨[.edit e], ?_⟩
  show _ = ((Operation.edit e).perform.result b).2
  rw [hperform, edit_reached, edit_reached]
  rfl

end Code.Buffer

/-! ## Specialised copies -/

namespace Kernel.Template

/-- Bytes of the same number. -/
theorem isPath_length : Action.IsPath fun bytes changed : Bytes => changed.length = bytes.length where
  refl _ := rfl
  trans h h' := h'.trans h

theorem flipBytes_length (mask : UInt8) (sites : List Nat) :
    (flipBytes mask sites).Takes fun bytes changed => changed.length = bytes.length := by
  induction sites with
  | nil => exact .idle isPath_length fun _ => rfl
  | cons site rest ih =>
    refine .bind isPath_length (fun bytes => ?_) fun _ => ih
    show (if h : site < bytes.length then _ else _ :
      Except (Failure TemplateError) Unit × Bytes).2.length = _
    split
    · exact List.length_set
    · rfl

theorem writeSites_length (fields : List (PatchSite × UInt32)) :
    (writeSites fields).Takes fun bytes changed => changed.length = bytes.length := by
  induction fields with
  | nil => exact .idle isPath_length fun _ => rfl
  | cons field rest ih =>
    refine .lift isPath_length fun stop hstop => ?_
    obtain ⟨rfl, -⟩ := Word.add_eq_ok.1 hstop
    refine .bind isPath_length (fun bytes => ?_) fun _ => ih
    show (if bytes.length < field.1.offset then _ else if _ then _ else _ :
      Except (Failure TemplateError) Unit × Bytes).2.length = _
    split
    · rfl
    · split
      · rfl
      · next hinside =>
        apply Bytes.length_overwrite
        rw [Bytes.length_littleEndian]
        exact Nat.not_lt.1 hinside

theorem applyDirection_length (t : Template) (direction : Direction) :
    (t.applyDirection direction).Takes fun bytes changed => changed.length = bytes.length := by
  refine .bind isPath_length (.idle isPath_length fun _ => rfl) fun bytes => ?_
  refine .bind isPath_length (.idle isPath_length fun _ => rfl) fun _ => ?_
  cases direction with
  | forward => exact .idle isPath_length fun _ => rfl
  | inverse => exact flipBytes_length t.flipMask t.flips

theorem applyPatches_length (t : Template) (values : List UInt32) :
    (t.applyPatches values).Takes fun bytes changed => changed.length = bytes.length := by
  refine .bind isPath_length (.idle isPath_length fun _ => rfl) fun bytes => ?_
  refine .bind isPath_length (.idle isPath_length fun _ => rfl) fun _ => ?_
  dsimp only
  split
  · exact .idle isPath_length fun _ => rfl
  · split
    · exact .idle isPath_length fun _ => rfl
    · exact writeSites_length _

end Kernel.Template

/-! ## Emissions -/

namespace Target

open Code.Buffer (Reaches isPath_reaches)

variable {σ α : Type}

/-- A run of the buffer leads from one emission to the other. -/
def Emission.Writes (e f : Emission σ) : Prop := Reaches e.buffer f.buffer

theorem Emission.isPath_writes : Action.IsPath (@Emission.Writes σ) where
  refl e := isPath_reaches.refl e.buffer
  trans h h' := isPath_reaches.trans h h'

theorem Emit.onBuffer_writes {ε : Type} (kind : ε → GenerateError)
    {act : Action Code.Buffer (Failure ε) α} (h : act.Takes Reaches) :
    (Emit.onBuffer kind act : Emit σ α).Takes Emission.Writes :=
  fun e => h e.buffer

theorem Emit.append_writes (bytes : Bytes) :
    (Emit.append bytes : Emit σ Nat).Takes Emission.Writes :=
  Emit.onBuffer_writes _ (Code.Buffer.perform_reaches (.append bytes))

/-- An operation that leaves the buffer alone, whatever else it does. -/
theorem Emit.writes_of_buffer {act : Emit σ α} (h : ∀ e, (act.result e).2.buffer = e.buffer) :
    act.Takes Emission.Writes := by
  intro e
  unfold Emission.Writes
  rw [h e]
  exact isPath_reaches.refl _

/-- A target that writes to its buffer by runs of operations. -/
structure Backend.Writes (backend : Backend σ) : Prop where
  emit : ∀ p, (backend.emit p).Takes Emission.Writes
  align : ∀ bias, (backend.align bias).Takes Emission.Writes

end Target

open Target Kernel Leaf
open Target.Emission (isPath_writes)
open Transform (Parameters)

variable {σ : Type} {backend : Backend σ}

theorem CallChain.emit_writes (hb : backend.Writes) (params : Parameters)
    (targets : CallChain.Targets) (nodes : List Node) :
    (CallChain.emit backend params targets nodes).Takes Emission.Writes := by
  refine .bind isPath_writes (.forM isPath_writes ?_ _) fun _ => .idle isPath_writes fun _ => rfl
  intro item
  cases item with
  | request p => exact hb.emit p
  | note event => exact Emit.writes_of_buffer fun _ => rfl

namespace Routine

theorem fragmentFrom_writes (name : String) (start : Nat) :
    (fragmentFrom name start : Emit σ Fragment).Takes Emission.Writes :=
  .idle isPath_writes fun _ => rfl

theorem copy_writes (direction : Direction) (template : Template) (patches : List UInt32) :
    (copy direction template patches : Emit σ Fragment).Takes Emission.Writes := by
  refine .bind isPath_writes (Emit.append_writes template.bytes) fun start => ?_
  refine .bind isPath_writes ?_ fun _ => fragmentFrom_writes _ _
  refine Emit.onBuffer_writes _ (Code.Buffer.edit_reaches ?_ _ _)
  exact .bind Template.isPath_length (template.applyDirection_length direction)
    fun _ => template.applyPatches_length patches

theorem emitNamed_writes (hb : backend.Writes) (name : String) (p : Primitive) :
    (emitNamed backend name p).Takes Emission.Writes := by
  refine .bind isPath_writes (.idle isPath_writes fun _ => rfl) fun start => ?_
  exact .bind isPath_writes (hb.emit p) fun _ => fragmentFrom_writes _ _

theorem emitPass_writes (hb : backend.Writes) (direction : Direction) (size : Nat) (step : Step) :
    (emitPass backend direction size step).Takes Emission.Writes := by
  have hcopy (template : Template) : (do
      copy direction template (← step.order.patchValues size) : Emit σ Fragment).Takes
        Emission.Writes :=
    .lift isPath_writes fun _ _ => copy_writes _ _ _
  have halign (template : Template) : (do
      if step.aligned then
        let padding ← backend.align (template.loopEntry.getD 0)
        Emit.note (.padded template.name padding)
      copy direction template (← step.order.patchValues size) : Emit σ Fragment).Takes
        Emission.Writes := by
    cases step.aligned with
    | true =>
      refine .bind isPath_writes (hb.align _) fun _ => ?_
      exact .bind isPath_writes (Emit.writes_of_buffer fun _ => rfl) fun _ => hcopy template
    | false => exact hcopy template
  unfold emitPass
  cases step.reload with
  | none => exact halign _
  | some bound => exact .bind isPath_writes (hb.emit _) fun _ => halign _

/-- A routine is written by a run of its buffer's operations. -/
theorem emit_writes (hb : backend.Writes) (params : Parameters) (direction : Direction)
    (schedule : Schedule) (nodes : List Node) :
    (Routine.emit backend params direction schedule nodes).Takes Emission.Writes := by
  have hcopy (template : Template) :
      (copy direction template [] : Emit σ Fragment).Takes Emission.Writes :=
    copy_writes direction template []
  refine .bind isPath_writes (hb.align _) fun _ => .bind isPath_writes (hcopy _) fun x4 => ?_
  refine .bind isPath_writes (hb.align _) fun _ => .bind isPath_writes (hcopy _) fun x8 => ?_
  refine .bind isPath_writes (.idle isPath_writes fun _ => rfl) fun buffer => ?_
  refine .lift isPath_writes fun _ _ => .lift isPath_writes fun _ _ => ?_
  refine .bind isPath_writes (hb.align _) fun _ => ?_
  refine .bind isPath_writes (emitNamed_writes hb _ _) fun prologue => ?_
  refine .bind isPath_writes (hb.emit _) fun _ => .bind isPath_writes (hcopy _) fun leafInit => ?_
  refine .bind isPath_writes
    (.mapM isPath_writes (emitPass_writes hb direction params.size) _) fun passes => ?_
  refine .bind isPath_writes (hcopy _) fun bridge => ?_
  refine .bind isPath_writes (CallChain.emit_writes hb params _ nodes) fun chain => ?_
  refine .bind isPath_writes (emitNamed_writes hb _ _) fun epilogue => ?_
  refine .lift isPath_writes fun entryAddress _ => ?_
  exact .idle isPath_writes fun _ => rfl

/-- The buffer that a routine leaves is the one that some run leaves. -/
theorem run_of_emit (hb : backend.Writes) {params : Parameters} {direction : Direction}
    {schedule : Schedule} {nodes : List Node}
    {result : Except (Failure GenerateError) (Routine × CallChain.Summary)} {e f : Emission σ}
    (h : (Routine.emit backend params direction schedule nodes).result e = (result, f)) :
    ∃ history, f.buffer = (Code.Buffer.run e.buffer history).2 := by
  have hwrites := emit_writes hb params direction schedule nodes e
  rw [h] at hwrites
  exact hwrites

end Routine

/-! ## The two targets -/

namespace Machine

theorem emitInstruction_writes (i : Instruction) :
    (emitInstruction i).Takes Emission.Writes := by
  refine .bind isPath_writes (.idle isPath_writes fun _ => rfl) fun address => ?_
  dsimp only
  split
  · exact .idle isPath_writes fun _ => rfl
  · exact .bind isPath_writes (Emit.append_writes _) fun _ => .idle isPath_writes fun _ => rfl

theorem emitPrimitive_writes (p : Primitive) : (emitPrimitive p).Takes Emission.Writes := by
  cases p with
  | prologue | epilogue =>
    exact .bind isPath_writes (Emit.append_writes _) fun _ => .idle isPath_writes fun _ => rfl
  | load role value => exact emitInstruction_writes _
  | add role delta => exact emitInstruction_writes _
  | shift role amount =>
    exact .bind isPath_writes (.idle isPath_writes fun _ => rfl) fun i => emitInstruction_writes i
  | call target => exact emitInstruction_writes _

theorem alignCursor_writes (bias : Nat) : (alignCursor bias).Takes Emission.Writes := by
  refine .bind isPath_writes (.idle isPath_writes fun _ => rfl) fun buffer => ?_
  refine .lift isPath_writes fun needed _ => ?_
  by_cases hneeded : 0 < needed
  · rw [if_pos hneeded]
    refine .bind isPath_writes (Emit.append_writes _) fun _ => ?_
    refine .bind isPath_writes (.idle isPath_writes fun _ => rfl) fun address => ?_
    refine .bind isPath_writes (Emit.writes_of_buffer fun _ => rfl) fun _ => ?_
    exact .idle isPath_writes fun _ => rfl
  · rw [if_neg hneeded]
    exact .idle isPath_writes fun _ => rfl

theorem writes : Machine.backend.Writes := ⟨emitPrimitive_writes, alignCursor_writes⟩

end Machine

namespace Target.Recorder

theorem count_writes (settings : Settings) : (count settings).Takes Emission.Writes := by
  apply Emit.writes_of_buffer
  intro e
  show (if _ then _ else _ : Except (Failure GenerateError) Unit × Emission Recorder).2.buffer = _
  split <;> rfl

theorem writes (settings : Settings) : (Recorder.backend settings).Writes where
  emit p := by
    refine .bind isPath_writes (count_writes settings) fun _ => ?_
    refine .bind isPath_writes (.idle isPath_writes fun _ => rfl) fun address => ?_
    refine .bind isPath_writes (Emit.append_writes _) fun _ => ?_
    exact Emit.writes_of_buffer fun _ => rfl
  align bias := by
    refine .bind isPath_writes (count_writes settings) fun _ => ?_
    refine .bind isPath_writes (Emit.onBuffer_writes _
      (Code.Buffer.perform_reaches (.align settings.fetchAlignment bias 0x90))) fun padding => ?_
    refine .bind isPath_writes (Emit.writes_of_buffer fun _ => rfl) fun _ => ?_
    exact .idle isPath_writes fun _ => rfl

end Target.Recorder

/-! ## Generations -/

namespace Generator

open Code.Buffer (run start replay)

variable {g t u : Generation σ} {request : Request}

/-- The region of a generation is the one before, written to by a run of a buffer on it. -/
def Overwrites (g u : Generation σ) : Prop :=
  ∃ history, u.plan.region = (run (start g.plan.region) history).2.overlay g.plan.region

theorem Attempt.overwrites (hb : g.generator.backend.Writes)
    {result : Except (Failure GenerateError) (Routine × CallChain.Summary)}
    (h : Attempt g request result t) : Overwrites g t := by
  have hnone : g.plan.region = (run (start g.plan.region) []).2.overlay g.plan.region :=
    (Code.Buffer.overlay_start _ _).symm
  cases h with
  | written _ _ _ _ hwrite =>
    obtain ⟨history, hhistory⟩ := Routine.run_of_emit hb hwrite
    exact ⟨history, congrArg (fun buffer => buffer.overlay g.plan.region) hhistory⟩
  | _ => exact ⟨[], hnone⟩

/-- Counting and announcing an outcome leaves the plan alone. -/
theorem conclude_plan (request : Request)
    (result : Except (Failure GenerateError) (Routine × CallChain.Summary)) :
    (conclude request result : Generate σ Routine).Takes fun t u => u.plan = t.plan := by
  have hp : Action.IsPath fun t u : Generation σ => u.plan = t.plan :=
    ⟨fun _ => rfl, fun h h' => h'.trans h⟩
  rcases result with (cause | x) | ⟨r, chain⟩
  · exact .bind hp (fun _ => rfl) fun _ => .bind hp (fun _ => rfl) fun _ =>
      .bind hp (fun _ => rfl) fun _ => fun _ => rfl
  · exact fun _ => rfl
  · exact .bind hp (fun _ => rfl) fun _ => .bind hp (fun _ => rfl) fun _ =>
      .bind hp (fun _ => rfl) fun _ => .bind hp (fun _ => rfl) fun _ => fun _ => rfl

/-- After every generation, also one that fails on the way, the region is what some run of a buffer
makes of it in place. Its bytes are as many as before, and past the cursor they are the same. -/
theorem generate_writes (hb : g.generator.backend.Writes)
    {result : Except (Failure GenerateError) Routine}
    (hr : (generate request).result g = (result, u)) :
    ∃ history,
      let b := (run (start g.plan.region) history).2
      u.plan.region = b.overlay g.plan.region ∧
      u.plan.region.bytes = replay (run (start g.plan.region) history).1 g.plan.region.bytes ∧
      u.plan.region.length = g.plan.region.length ∧
      ∀ i, b.position ≤ i → u.plan.region.bytes[i]? = g.plan.region.bytes[i]? := by
  have hconclude := conclude_plan request ((attempt request).result g).1
    ((attempt request).result g).2
  rw [← result_generate, hr] at hconclude
  have hattempt := attempt_of_result (Prod.eta ((attempt request).result g)).symm
  obtain ⟨history, hregion⟩ := hattempt.overwrites hb
  replace hregion := (congrArg (·.region) hconclude).trans hregion
  have hopened := Code.Buffer.opened_run g.plan.region history
  refine ⟨history, hregion, ?_, ?_, fun i hi => ?_⟩
  · rw [hregion, Code.Buffer.bytes_overlay_run]
  · rw [hregion]
    exact Code.Buffer.length_overlay _ (hopened.capacity ▸ hopened.position)
  · rw [hregion]
    exact Code.Buffer.getElem?_overlay _ _ hi

end Generator

end SplitRadix

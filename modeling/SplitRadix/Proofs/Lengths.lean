import SplitRadix.Machine.Glue
import SplitRadix.Proofs.CallChain
import SplitRadix.Proofs.Emission
import SplitRadix.Target.Recorder

/-!
# Targets that keep to their lengths

A target adds to what was written before and changes none of it. It also reports how long its
primitives are. It keeps to that if each primitive appends what was reported and nothing else, and
runs out of room only if that does not fit.

* `Emit.Pushes`, `Backend.OnlyAppends`: a target that only appends.
* `Recorder.onlyAppends`: the recording target is one, however it is set.
* `Emit.Appends`: an operation appends an allowed number of bytes.
* `Backend.KeepsLengths`: what a target promises about its lengths.
* `Machine.keepsLengths`: the x86-64 target keeps to its lengths.
-/

namespace SplitRadix.Target

variable {σ α β : Type}

/-- The operation adds to what was written and leaves the rest of the buffer alone. -/
def Emit.Pushes (act : Emit σ α) : Prop :=
  ∀ e, act.Ensures e (fun _ t => ∃ bytes, t.buffer = e.buffer.push bytes) fun _ _ => True

theorem Emit.Pushes.bind {act : Emit σ α} {next : α → Emit σ β} (hact : act.Pushes)
    (hnext : ∀ a, (next a).Pushes) : Emit.Pushes (act >>= next) := by
  intro e
  rw [Action.ensures_bind]
  refine (hact e).mono (fun a t ht => ?_) fun _ _ _ => trivial
  refine (hnext a t).mono (fun _ u hu => ?_) fun _ _ h => h
  obtain ⟨first, ht⟩ := ht
  obtain ⟨second, hu⟩ := hu
  exact ⟨first ++ second, by rw [hu, ht, Code.Buffer.push_push]⟩

/-- Whatever a target is asked for, it only appends. -/
structure Backend.OnlyAppends (backend : Backend σ) : Prop where
  emit : ∀ p, (backend.emit p).Pushes
  align : ∀ bias, (backend.align bias).Pushes

/-- The operation appends a number of bytes that is allowed for the buffer it starts from. If it
reports that there is no room, then such a number does not fit. -/
def Emit.Appends (act : Emit σ α) (allowed : Code.Buffer → Nat → Prop) : Prop :=
  ∀ e, act.Ensures e
    (fun _ t => ∃ bytes : Bytes, allowed e.buffer bytes.length ∧ t.buffer = e.buffer.push bytes)
    fun f _ => ∀ cause, f = .error (.buffer cause) →
      ∃ n, allowed e.buffer n ∧ e.buffer.remaining < n

/-- The primitives of a target have the lengths it reports, and its alignments take as many bytes as
it is to the boundary. -/
structure Backend.KeepsLengths (backend : Backend σ) : Prop where
  boundary : ∃ k, backend.fetchAlignment = 2 ^ k
  prologue : (backend.emit .prologue).Appends fun _ n => n = backend.prologueLength
  epilogue : (backend.emit .epilogue).Appends fun _ n => n = backend.epilogueLength
  glue : ∀ p, CallChain.IsGlue p → (backend.emit p).Appends fun _ n => n ≤ backend.maxPrimitive
  align : ∀ bias, (backend.align bias).Appends fun b n =>
    b.paddingFor backend.fetchAlignment bias = .ok n

theorem Emit.append_ensures (bytes : Bytes) (e : Emission σ) :
    (Emit.append bytes).Ensures e (fun _ t => t = { e with buffer := e.buffer.push bytes })
      fun f _ => (∃ cause, f = .error (.buffer cause)) ∧ e.buffer.remaining < bytes.length := by
  unfold Emit.append
  rw [Emit.ensures_onBuffer, Code.Buffer.ensures_append]
  exact ⟨fun _ => rfl, fun h => ⟨⟨_, rfl⟩, h⟩⟩

theorem Emit.Appends.pushes {act : Emit σ α} {allowed : Code.Buffer → Nat → Prop}
    (h : act.Appends allowed) : act.Pushes := by
  intro e
  refine (h e).mono (fun _ t ht => ?_) fun _ _ _ => trivial
  obtain ⟨bytes, -, ht⟩ := ht
  exact ⟨bytes, ht⟩

/-- A target that keeps to its lengths only appends. -/
theorem Backend.KeepsLengths.onlyAppends {backend : Backend σ} (h : backend.KeepsLengths) :
    backend.OnlyAppends where
  emit p := by
    by_cases hglue : CallChain.IsGlue p
    · exact (h.glue p hglue).pushes
    · cases p with
      | prologue => exact h.prologue.pushes
      | epilogue => exact h.epilogue.pushes
      | _ => exact absurd ⟨nofun, nofun⟩ hglue
  align bias := (h.align bias).pushes

namespace Recorder

theorem count_pushes (settings : Settings) : (count settings).Pushes := by
  intro e
  refine Action.ensures_iff.2 ⟨fun _ t ht => ?_, fun _ _ _ => trivial⟩
  by_cases hrefused : (settings.refuse == some e.own.requests) = true
  · have hresult : (count settings).result e = (.error (.error (.encoding .invalidRegister)),
        { e with own := { e.own with requests := e.own.requests + 1 } }) := if_pos hrefused
    rw [hresult] at ht
    cases ht
  · have hresult : (count settings).result e = (.ok (),
        { e with own := { e.own with requests := e.own.requests + 1 } }) := if_neg hrefused
    rw [hresult] at ht
    cases ht
    exact ⟨[], rfl⟩

theorem append_pushes (bytes : Bytes) : (Emit.append bytes : Emit Recorder Nat).Pushes := by
  intro e
  refine (Emit.append_ensures bytes e).mono (fun _ t ht => ?_) fun _ _ _ => trivial
  exact ⟨bytes, by rw [ht]⟩

theorem alignTo_pushes (boundary bias : Nat) (filler : UInt8) :
    (Emit.onBuffer .buffer (Code.Buffer.alignTo boundary bias filler) :
      Emit Recorder Nat).Pushes := by
  intro e
  rw [Emit.ensures_onBuffer]
  refine (Code.Buffer.alignTo_ensures boundary bias filler e.buffer).mono ?_ fun _ _ _ => trivial
  intro n c hc
  exact ⟨_, hc.2.2⟩

/-- The recording target only appends, however it is set. -/
theorem onlyAppends (settings : Settings) : (backend settings).OnlyAppends where
  emit p := by
    have haddress : (Emit.address : Emit Recorder Nat).Pushes := fun _ => ⟨[], rfl⟩
    refine (count_pushes settings).bind fun _ => haddress.bind fun _ => ?_
    exact (append_pushes _).bind fun _ _ => ⟨[], rfl⟩
  align bias := by
    refine (count_pushes settings).bind fun _ => ?_
    exact (alignTo_pushes _ _ _).bind fun _ _ => ⟨[], rfl⟩

end Recorder

end SplitRadix.Target

namespace SplitRadix.Machine

open Target

variable {e : Emission Unit}

theorem emitInstruction_ensures (i : Instruction) :
    (emitInstruction i).Ensures e
      (fun _ t => (assemble e.buffer.address [i]).length ≤ maxInstructionLength ∧
        t = { e with buffer := e.buffer.push (assemble e.buffer.address [i]) })
      fun f _ =>
        (f = .fault .instructionTooLong ∧
          maxInstructionLength < (assemble e.buffer.address [i]).length) ∨
        ((∃ cause, f = .error (.buffer cause)) ∧
          (assemble e.buffer.address [i]).length ≤ maxInstructionLength ∧
          e.buffer.remaining < (assemble e.buffer.address [i]).length) := by
  unfold emitInstruction Emit.address
  simp only [Action.ensures_bind, Action.ensures_view]
  by_cases hlong : maxInstructionLength < (assemble e.buffer.address [i]).length
  · rw [if_pos hlong]
    exact .inl ⟨rfl, hlong⟩
  · rw [if_neg hlong]
    have hle := Nat.not_lt.1 hlong
    refine Action.ensures_bind.2 ((Emit.append_ensures _ e).mono ?_ ?_)
    · rintro _ t rfl
      exact ⟨hle, rfl⟩
    · exact fun f _ h => .inr ⟨h.1, hle, h.2⟩

theorem emitInstruction_appends (i : Instruction) :
    (emitInstruction i).Appends fun _ n => n ≤ maxInstructionLength := by
  intro e
  refine (emitInstruction_ensures i).mono ?_ ?_
  · rintro _ t ⟨hle, rfl⟩
    exact ⟨_, hle, rfl⟩
  · rintro f _ (⟨rfl, -⟩ | ⟨-, hle, hroom⟩) cause hf
    · cases hf
    · exact ⟨_, hle, hroom⟩

theorem append_appends (bytes : Bytes) :
    Emit.Appends (do let _ ← Emit.append bytes : Emit Unit Unit) fun _ n => n = bytes.length := by
  intro e
  refine Action.ensures_bind.2 ((Emit.append_ensures bytes e).mono ?_ ?_)
  · rintro _ t rfl
    exact ⟨bytes, rfl, rfl⟩
  · exact fun f _ h _ _ => ⟨_, rfl, h.2⟩

theorem alignCursor_ensures (bias : Nat) :
    (alignCursor bias).Ensures e
      (fun needed t => e.buffer.paddingFor fetchAlignment bias = .ok needed ∧
        needed ≤ e.buffer.remaining ∧ t.buffer = e.buffer.push (padding needed))
      fun f t => t = e ∧
        ((∃ x, f = .fault x ∧ e.buffer.paddingFor fetchAlignment bias = .error x) ∨
          ∃ needed, f = .error (.buffer (.overflow needed e.buffer.remaining)) ∧
            e.buffer.paddingFor fetchAlignment bias = .ok needed ∧ e.buffer.remaining < needed) := by
  unfold alignCursor
  simp only [Action.ensures_bind, Action.ensures_view, Action.ensures_lift]
  refine ⟨fun needed hn => ?_, fun x hx => ⟨trivial, .inl ⟨x, rfl, hx⟩⟩⟩
  by_cases hpos : 0 < needed
  · rw [if_pos hpos]
    simp only [Action.ensures_bind, Emit.append, Emit.ensures_onBuffer, Code.Buffer.ensures_append,
      length_padding]
    exact ⟨fun hroom => ⟨hn, hroom, rfl⟩, fun hroom => ⟨trivial, .inr ⟨needed, rfl, hn, hroom⟩⟩⟩
  · rw [if_neg hpos]
    have hnil : padding needed = [] := List.eq_nil_of_length_eq_zero (by simp; omega)
    exact ⟨hn, by omega, by rw [hnil]; rfl⟩

theorem alignCursor_appends (bias : Nat) :
    (alignCursor bias).Appends fun b n => b.paddingFor fetchAlignment bias = .ok n := by
  intro e
  refine (alignCursor_ensures bias).mono ?_ ?_
  · rintro needed t ⟨hn, -, ht⟩
    exact ⟨padding needed, (length_padding needed).symm ▸ hn, ht⟩
  · rintro f _ ⟨-, ⟨x, rfl, -⟩ | ⟨needed, -, hn, hroom⟩⟩ cause hf
    · cases hf
    · exact ⟨needed, hn, hroom⟩

theorem shift_appends (role : Role) (amount : Int) :
    (emitPrimitive (.shift role amount)).Appends fun _ n => n ≤ maxInstructionLength := by
  intro e
  unfold emitPrimitive
  rw [Action.ensures_bind, Action.ensures_ofExcept]
  refine ⟨fun i _ => emitInstruction_appends i e, fun f hf cause hcause => ?_⟩
  cases hs : shiftInstruction role amount with
  | ok i => rw [hs] at hf; cases hf
  | error c => rw [hs] at hf; cases hf; cases hcause

/-- The x86-64 target keeps to its lengths. -/
theorem keepsLengths : backend.KeepsLengths where
  boundary := ⟨4, rfl⟩
  prologue := append_appends prologueBytes
  epilogue := append_appends epilogueBytes
  glue p hp := by
    cases p with
    | prologue => exact absurd rfl hp.1
    | epilogue => exact absurd rfl hp.2
    | load role value => exact emitInstruction_appends _
    | add role delta => exact emitInstruction_appends _
    | shift role amount => exact shift_appends role amount
    | call target => exact emitInstruction_appends _
  align := alignCursor_appends

theorem kernels_validate : kernels.validate = .ok () := eq_ok_of_toOption (by decide +kernel)

end SplitRadix.Machine

import SplitRadix.Machine.Glue
import SplitRadix.Proofs.Lengths
import SplitRadix.Proofs.Sweep

/-!
# Glue as instructions

A primitive between kernels is one instruction, assembled alone for the place where it goes. While it
waits for its place it stands at address zero, so that a call to address zero becomes a call to
itself. The ends of a routine are a few instructions each.

* `Expressible`: the primitives that can be encoded at an address.
* `assemble_settled`: the bytes of an instruction placed alone.
* `result_glue`, `spelling_of_glue`: what a primitive writes.
* `text_prologue`, `text_epilogue`: the ends of a routine.
-/

namespace SplitRadix.Machine

open Target Spelling

theorem fitsDword_iff {n : Int} : fitsDword n = true ↔ CallChain.IsImmediate n := by
  simp [fitsDword, CallChain.IsImmediate]

/-! ## Instructions placed alone -/

/-- What an instruction becomes that is placed alone at `ip`. -/
def settled (ip : Nat) : Instruction → Instruction
  | .call 0 => .call ip
  | i => i

theorem settled_of_ne {i : Instruction} (h : i ≠ .call 0) (ip : Nat) : settled ip i = i := by
  unfold settled
  split
  · exact absurd rfl h
  · rfl

theorem reaches_self (ip : Nat) : reaches ip ip = true := reaches_of_near (by omega) (by omega)

theorem assemble_settled {ip : Nat} {i : Instruction} (h : (settled ip i).Encodable ip) :
    assemble ip [i] = (settled ip i).encode ip := by
  by_cases hzero : i = .call 0
  · subst hzero
    exact assemble_call rfl (reaches_self ip)
  · rw [settled_of_ne hzero] at h ⊢
    by_cases hcall : ∃ target, i = .call target
    · obtain ⟨target, rfl⟩ := hcall
      exact assemble_call (resolveLone_call ip fun h0 => hzero (h0 ▸ rfl)) h
    · exact assemble_of_ne_call (fun target htarget => hcall ⟨target, htarget⟩) ip

/-! ## Primitives -/

/-- The instruction that a primitive between kernels stands for. -/
def glueInstruction : Primitive → Option Instruction
  | .prologue | .epilogue => none
  | .load role value => some (loadInstruction role value)
  | .add role delta => some (addInstruction role delta)
  | .shift role amount => (shiftInstruction role amount).toOption
  | .call target => some (.call target)

/-- What a primitive asks for can be encoded at `ip`. -/
def Expressible (ip : Nat) : Primitive → Prop
  | .prologue | .epilogue => False
  | .load _ _ => True
  | .add _ delta => CallChain.IsImmediate delta
  | .shift _ amount => amount ≠ 0 ∧ amount.natAbs ≤ 31
  | .call target => target < 2 ^ 64 ∧ reaches ip target = true

variable {ip : Nat} {p : Primitive}

/-- An expressible primitive is an instruction that can be encoded. -/
theorem Expressible.instruction (h : Expressible ip p) :
    ∃ i, glueInstruction p = some i ∧ (settled ip i).Encodable ip := by
  cases p with
  | prologue => exact h.elim
  | epilogue => exact h.elim
  | load role value => exact ⟨_, rfl, trivial⟩
  | add role delta => exact ⟨_, rfl, fitsDword_iff.2 h⟩
  | shift role amount =>
    obtain ⟨h0, h31⟩ := h
    have hcount : amount.natAbs < 256 := by omega
    simp only [glueInstruction, shiftInstruction]
    rw [if_neg (by omega)]
    split
    · exact ⟨_, rfl, hcount⟩
    · exact ⟨_, rfl, hcount⟩
  | call target =>
    refine ⟨_, rfl, ?_⟩
    by_cases hzero : target = 0
    · subst hzero
      exact reaches_self ip
    · rw [settled_of_ne fun heq => hzero (Instruction.call.inj heq)]
      exact h.2

/-- Writing a primitive between kernels is writing its instruction. -/
theorem result_glue {i : Instruction} (hi : glueInstruction p = some i) (e : Emission Unit) :
    (emitPrimitive p).result e = (emitInstruction i).result e := by
  cases p with
  | prologue => cases hi
  | epilogue => cases hi
  | load role value =>
    cases hi
    rfl
  | add role delta =>
    cases hi
    rfl
  | shift role amount =>
    simp only [glueInstruction] at hi
    cases hshift : shiftInstruction role amount with
    | ok j =>
      rw [hshift] at hi
      cases hi
      rw [emitPrimitive, hshift]
      rfl
    | error c =>
      rw [hshift] at hi
      cases hi
  | call target =>
    cases hi
    rfl

/-- What an expressible primitive writes is one instruction. -/
theorem spelling_of_glue {e t : Emission Unit} (hp : Expressible e.buffer.address p)
    (h : (emitPrimitive p).result e = (.ok (), t)) :
    ∃ i, glueInstruction p = some i ∧
      ∃ hsettled : (settled e.buffer.address i).Encodable e.buffer.address,
        t.buffer = e.buffer.push (ofInstruction hsettled).bytes := by
  obtain ⟨i, hi, hsettled⟩ := hp.instruction
  refine ⟨i, hi, hsettled, ?_⟩
  rw [result_glue hi] at h
  rw [((emitInstruction_ensures i).of_ok h).2, assemble_settled hsettled]
  rfl

/-! ## The ends of a routine -/

theorem text_encode {instructions : List Instruction}
    (h : ∀ i ∈ instructions, i.Encodable 0) :
    ∃ words, instructions.flatMap (Instruction.encode 0) = text words :=
  text_flatMap fun i hi => ⟨[ofInstruction (h i hi)], (List.append_nil _).symm⟩

theorem text_prologue : ∃ words, prologueBytes = text words :=
  @text_encode prologue (by decide)

theorem text_epilogue : ∃ words, epilogueBytes = text words :=
  @text_encode epilogue (by decide)

end SplitRadix.Machine

import SplitRadix.Proofs.Budget
import SplitRadix.Proofs.Lengths

/-!
# The lengths of encoded primitives

Each primitive of the x86-64 target is one instruction. A call takes five bytes as long as its target
is within reach of a 32-bit distance; every other primitive fits an instruction by itself.

* `assemble_of_ne_call`, `assemble_call`: an instruction placed alone.
* `reaches_of_near`: when a call reaches its target.
* `emitPrimitive_ensures`: a primitive in range is written wherever there is room.
-/

namespace SplitRadix.Machine

open Target

/-! ## Instructions placed alone -/

theorem assemble_of_ne_call {i : Instruction} (h : ∀ target, i ≠ .call target) (ip : Nat) :
    assemble ip [i] = i.encode ip := by
  cases i with
  | call target => exact absurd rfl (h target)
  | _ => exact List.append_nil _

/-- A call that reaches its target needs no slot. -/
theorem assemble_call {ip target t : Nat} (ht : resolveLone ip [.call target] = [.call t])
    (h : reaches ip t = true) :
    assemble ip [.call target] = (Instruction.call t).encode ip := by
  have hplace : place ip (.call t) = .direct ((Instruction.call t).encode ip) := if_pos h
  have hall : placeAll ip [.call t] = [.direct ((Instruction.call t).encode ip)] := by
    show [place ip (.call t)] = _
    rw [hplace]
  unfold assemble
  rw [ht, hall]
  exact List.append_nil _

theorem resolveLone_call (ip : Nat) {target : Nat} (h : target ≠ 0) :
    resolveLone ip [.call target] = [.call target] := by
  unfold resolveLone
  split
  · rename_i heq
    cases heq
    exact absurd rfl h
  · rfl

theorem length_extension_le (e : Extension) : e.bytes.length ≤ 1 := by
  unfold Extension.bytes
  split <;> simp

@[simp] theorem length_signedBytes (width : Nat) (n : Int) : (signedBytes width n).length = width :=
  Bytes.length_littleEndian width _

theorem length_form_register (wide : Bool) (opcode : Bytes) (reg code : Fin 16)
    (immediate : Bytes) :
    (form wide opcode reg (.register code) immediate).length ≤
      2 + opcode.length + immediate.length := by
  unfold form
  have := length_extension_le
    { (Operand.register code).extension with wide, reg := isHigh reg }
  rw [List.length_append, List.length_append, List.length_append]
  show _ + opcode.length + 1 + immediate.length ≤ _
  omega

theorem length_load_le (role : Role) (value : UInt32) (ip : Nat) :
    ((loadInstruction role value).encode ip).length ≤ maxInstructionLength := by
  have := length_extension_le { base := isHigh (roleRegister role).code }
  simp only [loadInstruction, Instruction.encode, shortForm, List.length_append, List.length_cons,
    Bytes.length_littleEndian, maxInstructionLength]
  omega

theorem length_add_le (role : Role) (delta : Int) (ip : Nat) :
    ((addInstruction role delta).encode ip).length ≤ maxInstructionLength := by
  unfold addInstruction Instruction.encode maxInstructionLength
  dsimp only
  split
  · have := length_extension_le { wide := roleWidth role == .qword }
    simp only [List.length_append, List.length_cons, length_signedBytes]
    omega
  · split
    · refine Nat.le_trans (length_form_register ..) ?_
      simp
    · refine Nat.le_trans (length_form_register ..) ?_
      simp

theorem length_shiftBytes_le (field : Fin 16) (dst : Gpr) (count : Nat) :
    (shiftBytes field dst count).length ≤ maxInstructionLength := by
  unfold shiftBytes maxInstructionLength
  split
  · refine Nat.le_trans (length_form_register ..) ?_
    simp
  · refine Nat.le_trans (length_form_register ..) ?_
    simp

/-! ## Reach -/

theorem toSigned_ofInt {n : Int} (hlow : -(2 ^ 63) ≤ n) (hhigh : n < 2 ^ 63) :
    Word.toSigned (Word.ofInt n) = n := by
  unfold Word.toSigned Word.ofInt
  split <;> omega

theorem reaches_of_near {ip target : Nat} (hlow : -(2 ^ 31) ≤ (target : Int) - ip - 5)
    (hhigh : (target : Int) - ip - 5 < 2 ^ 31) : reaches ip target = true := by
  unfold reaches distance fitsDword
  rw [show ((5 : Nat) : Int) = 5 from rfl, toSigned_ofInt (by omega) (by omega)]
  simp only [Bool.and_eq_true, decide_eq_true_eq]
  exact ⟨hlow, hhigh⟩

/-- A call to a target within reach takes five bytes. A lone call to address zero becomes a call to
itself, which is always within reach. -/
theorem length_call {ip target : Nat} (hlow : -(2 ^ 31) ≤ (target : Int) - ip - 5)
    (hhigh : (target : Int) - ip - 5 < 2 ^ 31) : (assemble ip [.call target]).length = 5 := by
  have five : ∀ t : Nat, ((Instruction.call t).encode ip).length = 5 := fun t => by
    simp [Instruction.encode]
  by_cases h0 : target = 0
  · subst h0
    rw [@assemble_call ip 0 ip rfl (reaches_of_near (by omega) (by omega)), five]
  · rw [assemble_call (resolveLone_call ip h0) (reaches_of_near hlow hhigh), five]

/-! ## Primitives -/

/-- The primitives that can be encoded in code that lies between `base` and `base + bound`. -/
def InRange (base bound : Nat) : Primitive → Prop
  | .prologue | .epilogue | .load .. | .add .. => True
  | .shift _ amount => amount ≠ 0 ∧ amount.natAbs ≤ 31
  | .call target => base ≤ target ∧ target ≤ base + bound

variable {e : Emission Unit}

/-- An instruction that is not too long is written wherever there is room for it. -/
theorem emitInstruction_of_room {i : Instruction}
    (hlen : (assemble e.buffer.address [i]).length ≤ maxInstructionLength)
    (hroom : maxInstructionLength ≤ e.buffer.remaining) :
    (emitInstruction i).Ensures e
      (fun _ t => ∃ bytes : Bytes, bytes.length ≤ maxInstructionLength ∧
        t = { e with buffer := e.buffer.push bytes })
      fun _ _ => False := by
  refine (emitInstruction_ensures i).mono ?_ ?_
  · rintro _ t ⟨-, rfl⟩
    exact ⟨_, hlen, rfl⟩
  · rintro f _ (⟨-, hlong⟩ | ⟨-, -, hfull⟩)
    · omega
    · omega

theorem append_of_room {bytes : Bytes} (hroom : bytes.length ≤ e.buffer.remaining) :
    Action.Ensures (do let _ ← Emit.append bytes : Emit Unit Unit) e
      (fun _ t => ∃ b : Bytes, b.length ≤ bytes.length ∧ t = { e with buffer := e.buffer.push b })
      fun _ _ => False := by
  refine Action.ensures_bind.2 ((Emit.append_ensures bytes e).mono ?_ ?_)
  · rintro _ t rfl
    exact ⟨bytes, Nat.le_refl _, rfl⟩
  · rintro f _ ⟨-, hfull⟩
    omega

theorem shiftInstruction_of_inRange {role : Role} {amount : Int} (h0 : amount ≠ 0)
    (h31 : amount.natAbs ≤ 31) :
    ∃ i : Instruction, shiftInstruction role amount = .ok i ∧ (∀ target, i ≠ .call target) ∧
      ∀ ip, (i.encode ip).length ≤ maxInstructionLength := by
  unfold shiftInstruction
  rw [if_neg (by omega)]
  split
  · exact ⟨_, rfl, nofun, fun _ => length_shiftBytes_le ..⟩
  · exact ⟨_, rfl, nofun, fun _ => length_shiftBytes_le ..⟩

/-- A primitive in range is written wherever there is room for it. -/
theorem emitPrimitive_ensures {base bound : Nat} {p : Primitive} (hp : InRange base bound p)
    (hbase : e.buffer.base = base) (hposition : e.buffer.position ≤ bound)
    (hreach : bound + 5 ≤ 2 ^ 31) (hroom : Routine.cost backend p ≤ e.buffer.remaining) :
    (emitPrimitive p).Ensures e
      (fun _ t => ∃ bytes : Bytes, bytes.length ≤ Routine.cost backend p ∧
        t = { e with buffer := e.buffer.push bytes })
      fun _ _ => False := by
  cases p with
  | prologue => exact append_of_room hroom
  | epilogue => exact append_of_room hroom
  | load role value =>
    refine emitInstruction_of_room ?_ hroom
    rw [assemble_of_ne_call fun _ h => by cases h]
    exact length_load_le role value _
  | add role delta =>
    refine emitInstruction_of_room ?_ hroom
    rw [assemble_of_ne_call fun _ h => by cases h]
    exact length_add_le role delta _
  | shift role amount =>
    obtain ⟨i, hi, hcall, hlen⟩ := @shiftInstruction_of_inRange role amount hp.1 hp.2
    unfold emitPrimitive
    rw [Action.ensures_bind, hi]
    refine Action.ensures_ofExcept_ok.2 ?_
    refine emitInstruction_of_room ?_ hroom
    rw [assemble_of_ne_call hcall]
    exact hlen _
  | call target =>
    obtain ⟨hlow, hhigh⟩ := hp
    refine emitInstruction_of_room ?_ hroom
    have haddress : e.buffer.address = base + e.buffer.position := by
      rw [Code.Buffer.address, hbase]
    rw [length_call (by omega) (by omega)]
    decide

end SplitRadix.Machine

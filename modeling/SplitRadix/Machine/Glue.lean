import SplitRadix.Machine.Assembler
import SplitRadix.Machine.Kernels
import SplitRadix.Target.Backend

/-!
# The x86-64 target

The register roles on x86-64, the instruction for each primitive, and the target made of them and
the kernels. The size and the loop bound share `ecx`, since the loops are over when the calls start.
Positions are full-width pointers; sizes are 32-bit numbers.
-/

namespace SplitRadix.Machine

open Target

/-- The register that plays a role. Mirrors `X64Encoder.to_gp64_register`. -/
def roleRegister : Role → Gpr
  | .loopCounter | .size => .rcx
  | .output => .rdx
  | .lut => .r8

/-- How much of its register a role uses. Mirrors `X64Encoder.is_pointer`. -/
def roleWidth : Role → Width
  | .loopCounter | .size => .dword
  | .output | .lut => .qword

/-- Set a register to a number. Mirrors `X64Encoder.mov_imm`. -/
def loadInstruction (role : Role) (value : UInt32) : Instruction :=
  .loadImmediate (roleRegister role) value

/-- Add a number to a register. Mirrors `X64Encoder.add_imm`. -/
def addInstruction (role : Role) (delta : Int) : Instruction :=
  .addImmediate (roleWidth role) (roleRegister role) delta

/-- Shift a register by one to 31 places, to the left if the amount is positive. Mirrors
`X64Encoder.shift`. -/
def shiftInstruction (role : Role) (amount : Int) : Except EncodingError Instruction :=
  if amount = 0 ∨ 31 < amount.natAbs then
    .error (.immediateOutOfRange "shift" amount)
  else if 0 < amount then
    .ok (.shiftLeft (roleRegister role) amount.natAbs)
  else
    .ok (.shiftRight (roleRegister role) amount.natAbs)

/-- Where the tables handed to a routine hold the twiddles, the input index and the sign mask. -/
def twiddlesField : Int := 0
def inputIndexField : Int := 8
def signMaskField : Int := 16

/-- The entry of a routine: save registers, move the arguments and load the tables. Mirrors
`X64Backend.assemble_prologue`. -/
def prologue : List Instruction :=
  [.push .rbx, .push .rbp, .push .r12,
   .move .r9 .rdi, .move .rbx .rsi, .move .r12 .rdx,
   .load .qword .r8 (.offset .r12 twiddlesField),
   .load .qword .r10 (.offset .r12 inputIndexField),
   .load .qword .rax (.offset .r12 signMaskField),
   .loadVector (xmm 15) (.offset .rax 0)]

/-- The exit of a routine. Mirrors `X64Backend.assemble_epilogue`. -/
def epilogue : List Instruction := [.pop .r12, .pop .rbp, .pop .rbx, .ret]

def prologueBytes : Bytes := assemble 0 prologue

def epilogueBytes : Bytes := assemble 0 epilogue

/-- Write one instruction, assembled for the place where it goes. Mirrors `X64Backend.emit_with`. -/
def emitInstruction (i : Instruction) : Emit Unit Unit := do
  let bytes := assemble (← Emit.address) [i]
  if maxInstructionLength < bytes.length then
    throw (.fault .instructionTooLong)
  let _ ← Emit.append bytes

/-- Write a primitive. -/
def emitPrimitive : Primitive → Emit Unit Unit
  | .prologue => do let _ ← Emit.append prologueBytes
  | .epilogue => do let _ ← Emit.append epilogueBytes
  | .load role value => emitInstruction (loadInstruction role value)
  | .add role delta => emitInstruction (addInstruction role delta)
  | .shift role amount => do
    let i ← Action.ofExcept ((shiftInstruction role amount).mapError fun e => .error (.encoding e))
    emitInstruction i
  | .call target => emitInstruction (.call target)

/-- The boundary that instructions are fetched from. -/
def fetchAlignment : Nat := 16

/-- Pad with instructions without effect. Mirrors `X64Backend.align_cursor`. -/
def alignCursor (bias : Nat) : Emit Unit Nat := do
  let needed ← (← Action.view Emission.buffer).paddingFor fetchAlignment bias
  if 0 < needed then
    let _ ← Emit.append (padding needed)
    Emit.note (.aligned (← Emit.address) needed)
  return needed

/-- The x86-64 target. It has no state. Mirrors `X64Backend`. -/
def backend : Backend Unit where
  name := "x86-64"
  kernels
  fetchAlignment
  maxPrimitive := maxInstructionLength
  signMask _ := rotationMask
  prologueLength := prologueBytes.length
  epilogueLength := epilogueBytes.length
  emit := emitPrimitive
  align := alignCursor

end SplitRadix.Machine

import SplitRadix.Code.Bytes
import SplitRadix.Machine.Instruction
import SplitRadix.Word

/-!
# Encoding instructions

An encoded instruction is an optional extension byte, an opcode, an operand byte with what it asks
for, and an immediate. Of several encodings of one instruction the usual shortest one is taken: a
displacement or immediate that fits a signed byte is written as one, and a zero displacement is left
out where the base allows it. Adding to the accumulator has a form of its own, which is always used.
-/

namespace SplitRadix.Machine

/-- Whether a number fits a signed byte. -/
def fitsByte (n : Int) : Bool := -128 ≤ n && n ≤ 127

/-- Whether a number fits a signed 32-bit field. -/
def fitsDword (n : Int) : Bool := -(2 ^ 31) ≤ n && n < 2 ^ 31

/-- A signed number in `width` bytes. -/
def signedBytes (width : Nat) (n : Int) : Bytes :=
  Bytes.littleEndian width (n % 2 ^ (8 * width)).toNat

/-- The extension byte: full width, and the fourth bits of the register field, the index and the
base. -/
structure Extension where
  wide : Bool := false
  reg : Bool := false
  index : Bool := false
  base : Bool := false
  deriving DecidableEq, Repr

namespace Extension

def value (e : Extension) : Nat :=
  8 * e.wide.toNat + 4 * e.reg.toNat + 2 * e.index.toNat + e.base.toNat

/-- The byte is left out if it says nothing. -/
def bytes (e : Extension) : Bytes :=
  if e.value = 0 then [] else [UInt8.ofNat (0x40 + e.value)]

end Extension

/-- Whether a register number needs its extension bit. -/
def isHigh (code : Fin 16) : Bool := 8 ≤ code.val

/-- The operand of an instruction besides its register field. -/
inductive Operand where
  | register (code : Fin 16)
  | memory (address : Address)
  | relative (disp : Int)    -- counted from the next instruction
  deriving DecidableEq, Repr

/-- An operand byte: how the operand is given, the register field, and the operand field. -/
def operandByte (mode reg field : Nat) : UInt8 :=
  UInt8.ofNat (64 * mode + 8 * (reg % 8) + field % 8)

/-- The mode and bytes of a displacement from a base register. The bases numbered 5 modulo 8 have no
form without a displacement. -/
def displacement (base : Gpr) (disp : Int) : Nat × Bytes :=
  if disp = 0 ∧ base.code.val % 8 ≠ 5 then (0, [])
  else if fitsByte disp then (1, signedBytes 1 disp)
  else (2, signedBytes 4 disp)

/-- The second operand byte of a memory operand: scale, index and base. -/
def indexByte (scale index base : Nat) : UInt8 := operandByte scale index base

/-- The bytes of an operand with register field `reg`. -/
def Operand.bytes (reg : Nat) : Operand → Bytes
  | register code => [operandByte 3 reg code.val]
  | relative disp => operandByte 0 reg 5 :: signedBytes 4 disp
  | memory ⟨some base, none, disp⟩ =>
    let (mode, tail) := displacement base disp
    if base.code.val % 8 = 4 then
      operandByte mode reg 4 :: indexByte 0 4 base.code.val :: tail
    else
      operandByte mode reg base.code.val :: tail
  | memory ⟨some base, some (index, scale), disp⟩ =>
    let (mode, tail) := displacement base disp
    operandByte mode reg 4 :: indexByte scale.code index.code.val base.code.val :: tail
  | memory ⟨none, some (index, scale), disp⟩ =>
    operandByte 0 reg 4 :: indexByte scale.code index.code.val 5 :: signedBytes 4 disp
  | memory ⟨none, none, disp⟩ =>
    operandByte 0 reg 4 :: indexByte 0 4 5 :: signedBytes 4 disp

/-- The extension bits an operand asks for. -/
def Operand.extension : Operand → Extension
  | register code => { base := isHigh code }
  | relative _ => {}
  | memory address => {
      index := address.index.any fun (index, _) => isHigh index.code
      base := address.base.any fun base => isHigh base.code }

/-- An instruction with a register field and an operand. -/
def form (wide : Bool) (opcode : Bytes) (reg : Fin 16) (operand : Operand)
    (immediate : Bytes) : Bytes :=
  Extension.bytes { operand.extension with wide, reg := isHigh reg } ++
    opcode ++ operand.bytes reg.val ++ immediate

/-- An instruction with a register in the opcode. -/
def shortForm (opcode : Nat) (reg : Gpr) (immediate : Bytes) : Bytes :=
  Extension.bytes { base := isHigh reg.code } ++
    UInt8.ofNat (opcode + reg.code.val % 8) :: immediate

/-- The recommended instructions without effect, by length. -/
def padSequences : List Bytes :=
  [[0x90],
   [0x66, 0x90],
   [0x0F, 0x1F, 0x00],
   [0x0F, 0x1F, 0x40, 0x00],
   [0x0F, 0x1F, 0x44, 0x00, 0x00],
   [0x66, 0x0F, 0x1F, 0x44, 0x00, 0x00],
   [0x0F, 0x1F, 0x80, 0x00, 0x00, 0x00, 0x00],
   [0x0F, 0x1F, 0x84, 0x00, 0x00, 0x00, 0x00, 0x00],
   [0x66, 0x0F, 0x1F, 0x84, 0x00, 0x00, 0x00, 0x00, 0x00]]

def Packed.opcode : Packed → UInt8
  | add => 0x58
  | sub => 0x5C
  | mul => 0x59
  | xor => 0x57

/-- An addition and a subtraction differ in one bit of their opcode. -/
theorem Packed.opcode_flip {op : Packed} (h : op = .add ∨ op = .sub) :
    op.flip.opcode = op.opcode ^^^ 0x04 := by
  rcases h with rfl | rfl <;> rfl

/-- The distance from the end of an instruction of `length` bytes at `ip` to `target`, around the
end of the address space if that is shorter. -/
def distance (ip length target : Nat) : Int :=
  Word.toSigned (Word.ofInt ((target : Int) - ip - length))

/-- The bytes of a shift of the lower half of a register. -/
def shiftBytes (field : Fin 16) (dst : Gpr) (count : Nat) : Bytes :=
  if count = 1 then form false [0xD1] field (.register dst.code) []
  else form false [0xC1] field (.register dst.code) [UInt8.ofNat count]

/-- The bytes of an instruction placed at `ip`. -/
def Instruction.encode (ip : Nat) : Instruction → Bytes
  | push reg => shortForm 0x50 reg []
  | pop reg => shortForm 0x58 reg []
  | ret => [0xC3]
  | breakpoint => [0xCC]
  | loadImmediate dst value => shortForm 0xB8 dst (Bytes.littleEndian 4 value.toNat)
  | addImmediate width dst value =>
    let wide := width == .qword
    if dst = .rax then
      Extension.bytes { wide } ++ 0x05 :: signedBytes 4 value
    else if fitsByte value then
      form wide [0x83] 0 (.register dst.code) (signedBytes 1 value)
    else
      form wide [0x81] 0 (.register dst.code) (signedBytes 4 value)
  | shiftLeft dst count => shiftBytes 4 dst count
  | shiftRight dst count => shiftBytes 7 dst count
  | move dst src => form true [0x89] src.code (.register dst.code) []
  | load width dst src => form (width == .qword) [0x8B] dst.code (.memory src) []
  | loadAddress dst src => form true [0x8D] dst.code (.memory src) []
  | compare first second => form true [0x39] second.code (.register first.code) []
  | xorLow dst src => form false [0x31] src.code (.register dst.code) []
  | moveVector dst src => form false [0x0F, 0x28] dst.code (.register src.code) []
  | loadVector dst src => form false [0x0F, 0x28] dst.code (.memory src) []
  | storeVector dst src => form false [0x0F, 0x29] src.code (.memory dst) []
  | packed op dst src => form false [0x0F, op.opcode] dst.code (.register src.code) []
  | shuffle dst src control => form false [0x0F, 0xC6] dst.code (.register src.code) [control]
  | call target => 0xE8 :: signedBytes 4 (distance ip 5 target)
  | callThrough slot => form false [0xFF] 2 (.relative (distance ip 6 slot)) []
  | jumpBelow .short target => 0x72 :: signedBytes 1 (distance ip 2 target)
  | jumpBelow .near target => 0x0F :: 0x82 :: signedBytes 4 (distance ip 6 target)
  | pad n => padSequences[n.val]?.getD []

/-- The longest instruction of the processor, in bytes. -/
def maxInstructionLength : Nat := 15

/-- `n` bytes of instructions without effect, the longest first. Mirrors `nop_padding`. -/
def padding (n : Nat) : Bytes :=
  if n = 0 then []
  else if n ≤ 9 then padSequences[n - 1]?.getD []
  else padSequences[8]?.getD [] ++ padding (n - 9)
termination_by n
decreasing_by omega

@[simp] theorem length_padding (n : Nat) : (padding n).length = n := by
  fun_induction padding n with
  | case1 => rfl
  | case2 n hpos hle =>
    have h : n = 1 ∨ n = 2 ∨ n = 3 ∨ n = 4 ∨ n = 5 ∨ n = 6 ∨ n = 7 ∨ n = 8 ∨ n = 9 := by omega
    rcases h with rfl | rfl | rfl | rfl | rfl | rfl | rfl | rfl | rfl <;> rfl
  | case3 n hpos hgt ih =>
    rw [List.length_append, ih]
    simp only [padSequences, List.getElem?_cons_succ, List.getElem?_cons_zero, Option.getD_some,
      List.length_cons, List.length_nil]
    omega

end SplitRadix.Machine

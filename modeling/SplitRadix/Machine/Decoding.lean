import SplitRadix.Machine.Encoding

/-!
# Decoding instructions

The reading side of the encoding: an instruction is read off the front of a byte string, with the
number of bytes it takes. Bytes that are no instruction of this library, or only the start of one,
give none.

* `decode`: one instruction.
* `disassemble`: all of a byte string, whose last entry may be an undecodable rest.
-/

namespace SplitRadix.Machine

namespace Extension

/-- The extension byte says which of its four low bits are set. -/
def ofByte (b : UInt8) : Extension where
  wide := b.toNat / 8 % 2 == 1
  reg := b.toNat / 4 % 2 == 1
  index := b.toNat / 2 % 2 == 1
  base := b.toNat % 2 == 1

/-- The extension at the front, if there is one. -/
def read : Bytes → Extension × Bytes
  | [] => ({}, [])
  | b :: rest => if b.toNat / 16 = 4 then (ofByte b, rest) else ({}, b :: rest)

end Extension

/-- A register number from its extension bit and its low three bits. -/
def joinCode (high : Bool) (low : Nat) : Fin 16 := Fin.ofNat 16 (8 * high.toNat + low % 8)

/-- The first `n` bytes and the rest, if there are so many. -/
def takeBytes : (n : Nat) → Bytes → Option (Bytes × Bytes)
  | 0, bytes => some ([], bytes)
  | _ + 1, [] => none
  | n + 1, b :: rest => (takeBytes n rest).map fun (taken, rest) => (b :: taken, rest)

/-- A signed number of `width` bytes. -/
def readSigned (width : Nat) (bytes : Bytes) : Option (Int × Bytes) :=
  (takeBytes width bytes).map fun (taken, rest) =>
    let n := Bytes.ofLittleEndian taken
    let half := 2 ^ (8 * width - 1)
    (if n < half then (n : Int) else (n : Int) - 2 * half, rest)

/-- The displacement that an operand mode asks for. -/
def readDisplacement (mode : Nat) (bytes : Bytes) : Option (Int × Bytes) :=
  match mode with
  | 0 => some (0, bytes)
  | 1 => readSigned 1 bytes
  | _ => readSigned 4 bytes

/-- A memory operand with a second operand byte. Index number 4 means no index; base number 5
without a displacement means no base. -/
def readIndexed (e : Extension) (mode : Nat) : Bytes → Option (Operand × Bytes)
  | [] => none
  | s :: rest =>
    let code := joinCode e.index (s.toNat / 8)
    let index := if code.val = 4 then none else some (Gpr.mk code, Scale.ofCode (s.toNat / 64))
    if mode = 0 ∧ s.toNat % 8 = 5 then
      (readSigned 4 rest).map fun (disp, rest) => (.memory ⟨none, index, disp⟩, rest)
    else
      (readDisplacement mode rest).map fun (disp, rest) =>
        (.memory ⟨some ⟨joinCode e.base s.toNat⟩, index, disp⟩, rest)

/-- The register field and the operand at the front. -/
def readOperand (e : Extension) : Bytes → Option (Fin 16 × Operand × Bytes)
  | [] => none
  | b :: rest =>
    let mode := b.toNat / 64
    let field := b.toNat % 8
    let reg := joinCode e.reg (b.toNat / 8)
    if mode = 3 then
      some (reg, .register (joinCode e.base field), rest)
    else if field = 4 then
      (readIndexed e mode rest).map fun (operand, rest) => (reg, operand, rest)
    else if mode = 0 ∧ field = 5 then
      (readSigned 4 rest).map fun (disp, rest) => (reg, .relative disp, rest)
    else
      (readDisplacement mode rest).map fun (disp, rest) =>
        (reg, .memory ⟨some ⟨joinCode e.base field⟩, none, disp⟩, rest)

/-- The address `disp` bytes past the end of an instruction of `length` bytes at `ip`. -/
def branchTarget (ip length : Nat) (disp : Int) : Nat := Word.ofInt ((ip : Int) + length + disp)

/-- An instruction of the two-byte opcodes, from its second byte on. -/
def readSecond (e : Extension) (ip : Nat) (opcode : UInt8) (bytes : Bytes) :
    Option (Instruction × Bytes) :=
  match opcode with
  | 0x82 => (readSigned 4 bytes).map fun (disp, rest) =>
      (.jumpBelow .near (branchTarget ip 6 disp), rest)
  | 0x28 =>
    match readOperand e bytes with
    | some (reg, .register code, rest) => some (.moveVector ⟨reg⟩ ⟨code⟩, rest)
    | some (reg, .memory address, rest) => some (.loadVector ⟨reg⟩ address, rest)
    | _ => none
  | 0x29 =>
    match readOperand e bytes with
    | some (reg, .memory address, rest) => some (.storeVector address ⟨reg⟩, rest)
    | _ => none
  | 0xC6 =>
    match readOperand e bytes with
    | some (reg, .register code, control :: rest) => some (.shuffle ⟨reg⟩ ⟨code⟩ control, rest)
    | _ => none
  | opcode =>
    match [Packed.add, .sub, .mul, .xor].find? fun op => op.opcode == opcode,
        readOperand e bytes with
    | some op, some (reg, .register code, rest) => some (.packed op ⟨reg⟩ ⟨code⟩, rest)
    | _, _ => none

/-- An addition of an immediate of `width` bytes. -/
def readAdd (e : Extension) (width : Nat) (bytes : Bytes) :
    Option (Instruction × Bytes) :=
  match readOperand e bytes with
  | some (reg, .register code, rest) =>
    if reg.val % 8 = 0 then
      (readSigned width rest).map fun (value, rest) =>
        (.addImmediate (if e.wide then .qword else .dword) ⟨code⟩ value, rest)
    else none
  | _ => none

/-- A shift of the lower half of a register by `count` places, or by a byte that follows. -/
def readShift (e : Extension) (count : Option Nat) (bytes : Bytes) :
    Option (Instruction × Bytes) :=
  match readOperand e bytes, count with
  | some (reg, .register code, rest), some n => finish reg code n rest
  | some (reg, .register code, n :: rest), none => finish reg code n.toNat rest
  | _, _ => none
where
  finish (reg code : Fin 16) (n : Nat) (rest : Bytes) : Option (Instruction × Bytes) :=
    if reg.val % 8 = 4 then some (.shiftLeft ⟨code⟩ n, rest)
    else if reg.val % 8 = 7 then some (.shiftRight ⟨code⟩ n, rest)
    else none

/-- An instruction of the one-byte opcodes, from its opcode on. -/
def readFirst (e : Extension) (ip : Nat) : Bytes → Option (Instruction × Bytes)
  | [] => none
  | opcode :: bytes =>
    match opcode with
    | 0x0F =>
      match bytes with
      | [] => none
      | second :: rest => readSecond e ip second rest
    | 0xC3 => some (.ret, bytes)
    | 0xCC => some (.breakpoint, bytes)
    | 0x05 => (readSigned 4 bytes).map fun (value, rest) =>
        (.addImmediate (if e.wide then .qword else .dword) .rax value, rest)
    | 0x83 => readAdd e 1 bytes
    | 0x81 => readAdd e 4 bytes
    | 0xD1 => readShift e (some 1) bytes
    | 0xC1 => readShift e none bytes
    | 0x89 =>
      match readOperand e bytes with
      | some (reg, .register code, rest) => some (.move ⟨code⟩ ⟨reg⟩, rest)
      | _ => none
    | 0x8B =>
      match readOperand e bytes with
      | some (reg, .memory address, rest) =>
        some (.load (if e.wide then .qword else .dword) ⟨reg⟩ address, rest)
      | _ => none
    | 0x8D =>
      match readOperand e bytes with
      | some (reg, .memory address, rest) => some (.loadAddress ⟨reg⟩ address, rest)
      | _ => none
    | 0x39 =>
      match readOperand e bytes with
      | some (reg, .register code, rest) => some (.compare ⟨code⟩ ⟨reg⟩, rest)
      | _ => none
    | 0x31 =>
      match readOperand e bytes with
      | some (reg, .register code, rest) => some (.xorLow ⟨code⟩ ⟨reg⟩, rest)
      | _ => none
    | 0xE8 => (readSigned 4 bytes).map fun (disp, rest) => (.call (branchTarget ip 5 disp), rest)
    | 0x72 => (readSigned 1 bytes).map fun (disp, rest) =>
        (.jumpBelow .short (branchTarget ip 2 disp), rest)
    | 0xFF =>
      match readOperand e bytes with
      | some (reg, .relative disp, rest) =>
        if reg.val = 2 then some (.callThrough (branchTarget ip 6 disp), rest) else none
      | _ => none
    | _ =>
      let low := opcode.toNat % 8
      match opcode.toNat / 8 with
      | 0x0A => some (.push ⟨joinCode e.base low⟩, bytes)
      | 0x0B => some (.pop ⟨joinCode e.base low⟩, bytes)
      | 0x17 => (takeBytes 4 bytes).map fun (taken, rest) =>
          (.loadImmediate ⟨joinCode e.base low⟩ (UInt32.ofNat (Bytes.ofLittleEndian taken)), rest)
      | _ => none

/-- The padding instruction at the front. -/
def readPad (bytes : Bytes) : Option (Instruction × Bytes) :=
  (List.finRange 9).findSome? fun n =>
    let sequence := (Instruction.pad n).encode 0
    if sequence.isPrefixOf bytes then some (.pad n, bytes.drop sequence.length) else none

/-- The instruction at the front and what follows it. -/
def readInstruction (ip : Nat) (bytes : Bytes) : Option (Instruction × Bytes) :=
  match readPad bytes with
  | some result => some result
  | none =>
    let (e, rest) := Extension.read bytes
    readFirst e ip rest

/-- The instruction at the front of `bytes`, which stand at `ip`, and its length. -/
def decode (ip : Nat) (bytes : Bytes) : Option (Instruction × Nat) :=
  let window := bytes.take maxInstructionLength
  (readInstruction ip window).map fun (i, rest) => (i, window.length - rest.length)

/-- A stretch of code: its offset, its bytes, and the instruction they are. Mirrors `Line`. -/
structure Decoded where
  offset : Nat
  bytes : Bytes
  instruction : Option Instruction
  deriving DecidableEq, Repr

/-- Decode the code that stands at `ip + offset`. -/
def disassembleFrom (ip offset : Nat) (code : Bytes) : List Decoded :=
  match code with
  | [] => []
  | b :: rest =>
    match decode (Word.ofInt (ip + offset)) (b :: rest) with
    | some (i, n + 1) =>
      ⟨offset, b :: rest.take n, some i⟩ :: disassembleFrom ip (offset + (n + 1)) (rest.drop n)
    | _ => [⟨offset, b :: rest, none⟩]
termination_by code.length
decreasing_by simp only [List.length_drop, List.length_cons]; omega

/-- Decode a code that stands at `ip`. Mirrors `disassemble`. -/
def disassemble (ip : Nat) (code : Bytes) : List Decoded := disassembleFrom ip 0 code

end SplitRadix.Machine

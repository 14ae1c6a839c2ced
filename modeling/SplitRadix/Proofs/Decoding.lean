import SplitRadix.Machine.Decoding
import SplitRadix.Proofs.Encoding

/-!
# Decoding what was encoded

Reading undoes encoding: numbers, register numbers, operands and whole instructions are read back
from the front of any byte string that starts with their bytes. A branch is stored as a distance, so
bytes that are read at another address give a branch to somewhere else, and any other instruction
gives itself.

* `readOperand_bytes`: operands.
* `readInstruction_encode`: instructions, wherever they stand and whatever follows.
* `length_encode_le`: an instruction fits the window of the processor.
* `branchTarget_distance`: a branch read where it was placed goes where it should.
-/

namespace SplitRadix.Machine

/-! ## Numbers -/

theorem takeBytes_append (a b : Bytes) : takeBytes a.length (a ++ b) = some (a, b) := by
  induction a with
  | nil => rfl
  | cons x a ih => simp [takeBytes, ih]

/-- A signed number that fits its field is read back. -/
theorem readSigned_signedBytes {width : Nat} (hwidth : 0 < width) {n : Int}
    (hlow : -((2 ^ (8 * width - 1) : Nat) : Int) ≤ n) (hhigh : n < (2 ^ (8 * width - 1) : Nat))
    (rest : Bytes) :
    readSigned width (signedBytes width n ++ rest) = some (n, rest) := by
  have htake := takeBytes_append (signedBytes width n) rest
  rw [length_signedBytes] at htake
  have hpow : 2 ^ (8 * width) = 2 * 2 ^ (8 * width - 1) := by
    rw [← Nat.pow_succ', show (8 * width - 1).succ = 8 * width by omega]
  have hbytes : 256 ^ width = 2 ^ (8 * width) := by
    rw [Nat.pow_mul]
  have hvalue : Bytes.ofLittleEndian (signedBytes width n) =
      (n % (2 ^ (8 * width) : Nat)).toNat := by
    rw [signedBytes, Bytes.ofLittleEndian_littleEndian, hbytes]
    have hcast : (2 : Int) ^ (8 * width) = (2 ^ (8 * width) : Nat) := by simp
    rw [hcast, Nat.mod_eq_of_lt]
    omega
  simp only [readSigned, htake, hvalue, Option.map_some, hpow, Option.some.injEq, Prod.mk.injEq,
    and_true]
  generalize 2 ^ (8 * width - 1) = half at *
  by_cases hsign : 0 ≤ n
  · rw [Int.emod_eq_of_lt hsign (by omega), if_pos (by omega)]
    omega
  · -- a negative number is stored as its complement
    have hmod : n % (2 * half : Nat) = n + (2 * half : Nat) := by
      rw [← Int.add_emod_right, Int.emod_eq_of_lt (by omega) (by omega)]
    rw [hmod, if_neg (by omega)]
    omega

theorem readSigned_byte {n : Int} (h : fitsByte n = true) (rest : Bytes) :
    readSigned 1 (signedBytes 1 n ++ rest) = some (n, rest) := by
  simp only [fitsByte, Bool.and_eq_true, decide_eq_true_eq] at h
  exact readSigned_signedBytes (by decide) (by omega) (by omega) rest

theorem readSigned_dword {n : Int} (h : fitsDword n = true) (rest : Bytes) :
    readSigned 4 (signedBytes 4 n ++ rest) = some (n, rest) := by
  simp only [fitsDword, Bool.and_eq_true, decide_eq_true_eq] at h
  exact readSigned_signedBytes (by decide) (by omega) (by omega) rest

/-! ## Register numbers -/

theorem toNat_operandByte {mode : Nat} (h : mode < 4) (reg field : Nat) :
    (operandByte mode reg field).toNat = 64 * mode + 8 * (reg % 8) + field % 8 := by
  rw [operandByte, UInt8.toNat_ofNat']
  omega

/-- A register number is put together from its extension bit and its low bits. -/
theorem joinCode_isHigh (code : Fin 16) {low : Nat} (h : low % 8 = code.val % 8) :
    joinCode (isHigh code) low = code := by
  apply Fin.ext
  have := code.isLt
  by_cases hhigh : 8 ≤ code.val
  · simp [joinCode, isHigh, hhigh, h]
    omega
  · simp [joinCode, isHigh, hhigh, h]
    omega

theorem read_extension (e : Extension) {b : UInt8} (h : b.toNat / 16 ≠ 4) (rest : Bytes) :
    Extension.read (e.bytes ++ b :: rest) = (e, b :: rest) := by
  obtain ⟨wide, reg, index, base⟩ := e
  cases wide <;> cases reg <;> cases index <;> cases base <;>
    simp [Extension.bytes, Extension.value, Extension.read, Extension.ofByte, h]

/-! ## Operands -/

/-- The bytes `tail` are the displacement `disp` from `base` in operand mode `mode`. -/
structure Displaces (base : Gpr) (disp : Int) (mode : Nat) (tail : Bytes) : Prop where
  mode_lt : mode < 3
  base_ne : mode = 0 → base.code.val % 8 ≠ 5
  read : ∀ rest, readDisplacement mode (tail ++ rest) = some (disp, rest)

theorem displaces_displacement (base : Gpr) {disp : Int} (h : fitsDword disp = true) :
    Displaces base disp (displacement base disp).1 (displacement base disp).2 := by
  unfold displacement
  split
  · rename_i hzero
    refine ⟨by decide, fun _ => hzero.2, fun rest => ?_⟩
    rw [hzero.1]
    rfl
  · split
    · rename_i hbyte
      exact ⟨Nat.lt_succ_of_lt (Nat.lt_succ_self 1), nofun, readSigned_byte hbyte⟩
    · exact ⟨Nat.lt_succ_self 2, nofun, readSigned_dword h⟩

/-- A long displacement is read back also where a shorter one would do. -/
theorem displaces_long (base : Gpr) {disp : Int} (h : fitsDword disp = true) :
    Displaces base disp 2 (signedBytes 4 disp) :=
  ⟨by decide, nofun, readSigned_dword h⟩

/-- The operand bytes of `[base]` with a displacement of some mode to follow. -/
def basedBytes (mode reg : Nat) (base : Gpr) : Bytes :=
  if base.code.val % 8 = 4 then [operandByte mode reg 4, indexByte 0 4 base.code.val]
  else [operandByte mode reg base.code.val]

theorem bytes_based (reg : Nat) (base : Gpr) (disp : Int) :
    (Operand.memory ⟨some base, none, disp⟩).bytes reg =
      basedBytes (displacement base disp).1 reg base ++ (displacement base disp).2 := by
  show (if base.code.val % 8 = 4 then _ else _) = _
  unfold basedBytes
  split <;> rfl

variable {e : Extension} {reg : Fin 16} {base : Gpr} {disp : Int} {mode : Nat} {tail : Bytes}

/-- What follows from an operand byte. -/
theorem readOperand_cons (hmode : mode < 4) (hreg : e.reg = isHigh reg) (field : Nat)
    (rest : Bytes) :
    readOperand e (operandByte mode reg.val field :: rest) =
      if mode = 3 then some (reg, .register (joinCode e.base field), rest)
      else if field % 8 = 4 then
        (readIndexed e mode rest).map fun (operand, rest) => (reg, operand, rest)
      else if mode = 0 ∧ field % 8 = 5 then
        (readSigned 4 rest).map fun (disp, rest) => (reg, .relative disp, rest)
      else
        (readDisplacement mode rest).map fun (disp, rest) =>
          (reg, .memory ⟨some ⟨joinCode e.base field⟩, none, disp⟩, rest) := by
  have hbyte := toNat_operandByte hmode reg.val field
  have hjoin : joinCode e.reg ((operandByte mode reg.val field).toNat / 8) = reg := by
    rw [hreg]
    exact joinCode_isHigh reg (by omega)
  have hmodes : (operandByte mode reg.val field).toNat / 64 = mode := by omega
  have hfield : (operandByte mode reg.val field).toNat % 8 = field % 8 := by omega
  have hlow : joinCode e.base (field % 8) = joinCode e.base field := by
    rw [joinCode, joinCode, Nat.mod_mod]
  simp only [readOperand, hjoin, hmodes, hfield, hlow]

/-- What follows from a second operand byte. -/
theorem readIndexed_cons (scale : Scale) (index base : Nat) (rest : Bytes) :
    readIndexed e mode (indexByte scale.code index base :: rest) =
      let code := joinCode e.index index
      let index := if code.val = 4 then none else some (Gpr.mk code, scale)
      if mode = 0 ∧ base % 8 = 5 then
        (readSigned 4 rest).map fun (disp, rest) => (.memory ⟨none, index, disp⟩, rest)
      else
        (readDisplacement mode rest).map fun (disp, rest) =>
          (.memory ⟨some ⟨joinCode e.base base⟩, index, disp⟩, rest) := by
  have hscale : scale.code < 4 := by cases scale <;> decide
  have hbyte := toNat_operandByte hscale index base
  have hscales : (operandByte scale.code index base).toNat / 64 = scale.code := by omega
  have hfield : (operandByte scale.code index base).toNat % 8 = base % 8 := by omega
  have hindex : (operandByte scale.code index base).toNat / 8 % 8 = index % 8 := by omega
  have hjoin : ∀ high, joinCode high ((operandByte scale.code index base).toNat / 8) =
      joinCode high index := fun high => by rw [joinCode, joinCode, hindex]
  have hlow : ∀ high, joinCode high (operandByte scale.code index base).toNat =
      joinCode high base := fun high => by rw [joinCode, joinCode, hfield]
  simp only [readIndexed, indexByte, hjoin, hlow, hscales, hfield, Scale.ofCode_code]

theorem readOperand_based (hreg : e.reg = isHigh reg) (hbase : e.base = isHigh base.code)
    (hindex : e.index = false) (h : Displaces base disp mode tail) (rest : Bytes) :
    readOperand e (basedBytes mode reg.val base ++ (tail ++ rest)) =
      some (reg, .memory ⟨some base, none, disp⟩, rest) := by
  have hmode := h.mode_lt
  have hjoin : joinCode e.base base.code.val = base.code := hbase ▸ joinCode_isHigh _ rfl
  unfold basedBytes
  split
  · rename_i h4
    have hnone : (joinCode e.index 4).val = 4 := by rw [hindex]; rfl
    have hbyte := @readIndexed_cons e mode .one 4 base.code.val (tail ++ rest)
    rw [List.cons_append, readOperand_cons (by omega) hreg, if_neg (by omega), if_pos (by decide)]
    rw [List.cons_append, List.nil_append, show (0 : Nat) = Scale.one.code from rfl, hbyte]
    simp [hnone, hjoin, h.read, h4]
  · rename_i h4
    rw [List.cons_append, List.nil_append, readOperand_cons (by omega) hreg, if_neg (by omega),
      if_neg h4, if_neg fun h5 => h.base_ne h5.1 h5.2, h.read, hjoin]
    rfl

theorem readOperand_indexed {index : Gpr} (scale : Scale) (hne : index ≠ .rsp)
    (hreg : e.reg = isHigh reg) (hbase : e.base = isHigh base.code)
    (hindex : e.index = isHigh index.code) (h : Displaces base disp mode tail) (rest : Bytes) :
    readOperand e (operandByte mode reg.val 4 ::
        indexByte scale.code index.code.val base.code.val :: (tail ++ rest)) =
      some (reg, .memory ⟨some base, some (index, scale), disp⟩, rest) := by
  have hmode := h.mode_lt
  have hjoin : joinCode e.base base.code.val = base.code := hbase ▸ joinCode_isHigh _ rfl
  have hjoin' : joinCode e.index index.code.val = index.code := hindex ▸ joinCode_isHigh _ rfl
  have hsome : index.code.val ≠ 4 := fun h4 => hne (congrArg Gpr.mk (Fin.ext h4))
  rw [readOperand_cons (by omega) hreg, if_neg (by omega), if_pos (by decide), readIndexed_cons]
  simp only [hjoin, hjoin', if_neg hsome, h.read]
  rw [if_neg fun h5 => h.base_ne h5.1 h5.2]
  rfl

/-- The operands that can be encoded. The stack pointer is no index. -/
def Operand.Encodable : Operand → Prop
  | register _ => True
  | memory address => fitsDword address.disp = true ∧ ∀ index ∈ address.index, index.1 ≠ .rsp
  | relative disp => fitsDword disp = true

instance : (operand : Operand) → Decidable operand.Encodable
  | .register _ => inferInstanceAs (Decidable True)
  | .memory _ => inferInstanceAs (Decidable (_ ∧ _))
  | .relative _ => inferInstanceAs (Decidable (_ = _))

/-- An operand and the register field are read back. -/
theorem readOperand_bytes {operand : Operand} (h : operand.Encodable) (wide : Bool)
    (reg : Fin 16) (rest : Bytes) :
    readOperand { operand.extension with wide, reg := isHigh reg }
      (operand.bytes reg.val ++ rest) = some (reg, operand, rest) := by
  match operand, h with
  | .register code, _ =>
    have hjoin : joinCode (isHigh code) code.val = code := joinCode_isHigh _ rfl
    show readOperand _ (operandByte 3 reg.val code.val :: rest) = _
    rw [readOperand_cons (by decide) rfl, if_pos rfl]
    exact congrArg (fun code => some (reg, Operand.register code, rest)) hjoin
  | .relative disp, h =>
    show readOperand _ (operandByte 0 reg.val 5 :: (signedBytes 4 disp ++ rest)) = _
    rw [readOperand_cons (by decide) rfl, if_neg (by decide), if_neg (by decide),
      if_pos (by decide), readSigned_dword h]
    rfl
  | .memory ⟨some base, none, disp⟩, h =>
    rw [bytes_based, List.append_assoc]
    exact readOperand_based rfl rfl rfl (displaces_displacement base h.1) rest
  | .memory ⟨some base, some (index, scale), disp⟩, h =>
    exact readOperand_indexed scale (h.2 _ rfl) rfl rfl rfl (displaces_displacement base h.1) rest
  | .memory ⟨none, some (index, scale), disp⟩, h =>
    have hjoin : joinCode (isHigh index.code) index.code.val = index.code := joinCode_isHigh _ rfl
    have hsome : index.code.val ≠ 4 := fun h4 => h.2 _ rfl (congrArg Gpr.mk (Fin.ext h4))
    show readOperand _ (operandByte 0 reg.val 4 :: indexByte scale.code index.code.val 5 ::
      (signedBytes 4 disp ++ rest)) = _
    rw [readOperand_cons (by decide) rfl, if_neg (by decide), if_pos (by decide), readIndexed_cons,
      readSigned_dword h.1]
    simp [Operand.extension, hjoin, hsome]
  | .memory ⟨none, none, disp⟩, h =>
    show readOperand _ (operandByte 0 reg.val 4 :: indexByte Scale.one.code 4 5 ::
      (signedBytes 4 disp ++ rest)) = _
    rw [readOperand_cons (by decide) rfl, if_neg (by decide), if_pos (by decide), readIndexed_cons,
      readSigned_dword h.1]
    rfl

/-! ## Instructions -/

/-- Whether some padding instruction may stand at the front. -/
def startsPad : Bytes → Bool
  | 0x90 :: _ | 0x66 :: _ | 0x0F :: 0x1F :: _ => true
  | _ => false

theorem startsPad_pad (n : Fin 9) (rest : Bytes) :
    startsPad ((Instruction.pad n).encode 0 ++ rest) = true := by
  match n with
  | 0 | 1 | 2 | 3 | 4 | 5 | 6 | 7 | 8 => rfl

theorem readPad_eq_none {bytes : Bytes} (h : startsPad bytes = false) : readPad bytes = none := by
  apply List.findSome?_eq_none_iff.2
  intro n _
  apply if_neg
  intro hprefix
  obtain ⟨rest, rfl⟩ := List.isPrefixOf_iff_prefix.1 hprefix
  rw [startsPad_pad] at h
  cases h

theorem readPad_pad (n : Fin 9) (rest : Bytes) :
    readPad ((Instruction.pad n).encode 0 ++ rest) = some (.pad n, rest) := by
  match n with
  | 0 | 1 | 2 | 3 | 4 | 5 | 6 | 7 | 8 => rfl

theorem readInstruction_extended (e : Extension) {b : UInt8} {rest : Bytes} (hb : b.toNat / 16 ≠ 4)
    (hpad : startsPad (b :: rest) = false) (ip : Nat) :
    readInstruction ip (e.bytes ++ b :: rest) = readFirst e ip (b :: rest) := by
  have hstart : startsPad (e.bytes ++ b :: rest) = false := by
    obtain ⟨wide, reg, index, base⟩ := e
    cases wide <;> cases reg <;> cases index <;> cases base <;> first | exact hpad | rfl
  simp only [readInstruction, readPad_eq_none hstart, read_extension e hb]

/-- An instruction with an operand comes down to its opcode and an operand that is read back. -/
theorem readInstruction_form {b : UInt8} {opcode : Bytes} (hb : b.toNat / 16 ≠ 4)
    (hpad : ∀ rest, startsPad (b :: opcode ++ rest) = false) {operand : Operand}
    (h : operand.Encodable) (ip : Nat) (wide : Bool) (reg : Fin 16) (immediate rest : Bytes) :
    ∃ e bytes, e.wide = wide ∧ readOperand e bytes = some (reg, operand, immediate ++ rest) ∧
      readInstruction ip (form wide (b :: opcode) reg operand immediate ++ rest) =
        readFirst e ip (b :: opcode ++ bytes) := by
  refine ⟨{ operand.extension with wide, reg := isHigh reg },
    operand.bytes reg.val ++ (immediate ++ rest), rfl, readOperand_bytes h wide reg _, ?_⟩
  rw [form]
  simp only [List.append_assoc]
  exact readInstruction_extended _ hb (hpad _) ip

/-- The low bits of a register number. -/
def Gpr.low (reg : Gpr) : Fin 8 := ⟨reg.code.val % 8, Nat.mod_lt _ (by decide)⟩

theorem Gpr.joinCode_low (reg : Gpr) : joinCode (isHigh reg.code) reg.low.val = reg.code :=
  joinCode_isHigh _ (Nat.mod_mod _ _)

theorem readInstruction_shortForm {opcode : Nat}
    (h : ∀ n : Fin 8, startsPad [UInt8.ofNat (opcode + n.val)] = false ∧
      UInt8.ofNat (opcode + n.val) ≠ 0x0F ∧ (UInt8.ofNat (opcode + n.val)).toNat / 16 ≠ 4)
    (ip : Nat) (reg : Gpr) (immediate rest : Bytes) :
    readInstruction ip (shortForm opcode reg immediate ++ rest) =
      readFirst { base := isHigh reg.code } ip
        (UInt8.ofNat (opcode + reg.low.val) :: (immediate ++ rest)) := by
  obtain ⟨hpad, hne, hb⟩ := h reg.low
  rw [shortForm, List.append_assoc, List.cons_append]
  refine readInstruction_extended _ hb ?_ ip
  revert hpad hne
  simp only [startsPad]
  split <;> split <;> simp_all

namespace Instruction

/-- What the fields of an instruction at `ip` have room for. -/
def Encodable (ip : Nat) : Instruction → Prop
  | addImmediate _ _ value => fitsDword value = true
  | shiftLeft _ count | shiftRight _ count => count < 256
  | load _ _ src | loadAddress _ src | loadVector _ src => (Operand.memory src).Encodable
  | storeVector dst _ => (Operand.memory dst).Encodable
  | call target => fitsDword (distance ip 5 target) = true
  | callThrough slot => fitsDword (distance ip 6 slot) = true
  | jumpBelow .short target => fitsByte (distance ip 2 target) = true
  | jumpBelow .near target => fitsDword (distance ip 6 target) = true
  | _ => True

instance (ip : Nat) : (i : Instruction) → Decidable (i.Encodable ip)
  | addImmediate _ _ _ | call _ | callThrough _ | jumpBelow .short _ | jumpBelow .near _ =>
    inferInstanceAs (Decidable (_ = true))
  | shiftLeft _ _ | shiftRight _ _ => inferInstanceAs (Decidable (_ < 256))
  | load _ _ src | loadAddress _ src | loadVector _ src =>
    inferInstanceAs (Decidable (Operand.memory src).Encodable)
  | storeVector dst _ => inferInstanceAs (Decidable (Operand.memory dst).Encodable)
  | push _ | pop _ | ret | breakpoint | loadImmediate _ _ | move _ _ | compare _ _ | xorLow _ _
  | moveVector _ _ | packed _ _ _ | shuffle _ _ _ | pad _ => inferInstanceAs (Decidable True)

/-- The instruction that the bytes of an instruction placed at `ip` are at `ip'`: a branch keeps its
distance. -/
def moved (ip ip' : Nat) : Instruction → Instruction
  | call target => call (branchTarget ip' 5 (distance ip 5 target))
  | callThrough slot => callThrough (branchTarget ip' 6 (distance ip 6 slot))
  | jumpBelow .short target => jumpBelow .short (branchTarget ip' 2 (distance ip 2 target))
  | jumpBelow .near target => jumpBelow .near (branchTarget ip' 6 (distance ip 6 target))
  | i => i

end Instruction

/-! ### The forms with several encodings -/

theorem readInstruction_shift {field : Fin 16} {dst : Gpr} {count : Nat} (hcount : count < 256)
    {i : Instruction} {rest : Bytes}
    (hfinish : readShift.finish field dst.code count rest = some (i, rest)) (ip : Nat) :
    readInstruction ip (shiftBytes field dst count ++ rest) = some (i, rest) := by
  unfold shiftBytes
  split
  · rename_i hone
    obtain ⟨e, bytes, -, hread, heq⟩ := @readInstruction_form 0xD1 [] (by decide) (fun _ => rfl)
      (.register dst.code) trivial ip false field [] rest
    subst hone
    simpa [heq, readFirst, readShift, hread] using hfinish
  · obtain ⟨e, bytes, -, hread, heq⟩ := @readInstruction_form 0xC1 [] (by decide) (fun _ => rfl)
      (.register dst.code) trivial ip false field [UInt8.ofNat count] rest
    simpa [heq, readFirst, readShift, hread, Nat.mod_eq_of_lt hcount] using hfinish

theorem width_of_wide (width : Width) : (if width = .qword then Width.qword else .dword) = width := by
  cases width <;> rfl

theorem readInstruction_add (width : Width) (dst : Gpr) {value : Int} (h : fitsDword value = true)
    (ip : Nat) (rest : Bytes) :
    readInstruction ip ((Instruction.addImmediate width dst value).encode ip ++ rest) =
      some (.addImmediate width dst value, rest) := by
  simp only [Instruction.encode]
  split
  · rename_i hrax
    rw [List.append_assoc, List.cons_append, readInstruction_extended _ (by decide) rfl]
    simp [readFirst, readSigned_dword h, hrax, width_of_wide]
  · split
    · rename_i hbyte
      obtain ⟨e, bytes, hwide, hread, heq⟩ := @readInstruction_form 0x83 [] (by decide)
        (fun _ => rfl) (.register dst.code) trivial ip (width == .qword) 0 (signedBytes 1 value) rest
      simp [heq, readFirst, readAdd, hread, readSigned_byte hbyte, hwide, width_of_wide]
    · obtain ⟨e, bytes, hwide, hread, heq⟩ := @readInstruction_form 0x81 [] (by decide)
        (fun _ => rfl) (.register dst.code) trivial ip (width == .qword) 0 (signedBytes 4 value) rest
      simp [heq, readFirst, readAdd, hread, readSigned_dword h, hwide, width_of_wide]

/-! ### The forms with a register in the opcode -/

theorem readFirst_push (e : Extension) (ip : Nat) (low : Fin 8) (rest : Bytes) :
    readFirst e ip (UInt8.ofNat (0x50 + low.val) :: rest) =
      some (.push ⟨joinCode e.base low.val⟩, rest) := by
  match low with
  | 0 | 1 | 2 | 3 | 4 | 5 | 6 | 7 => rfl

theorem readFirst_pop (e : Extension) (ip : Nat) (low : Fin 8) (rest : Bytes) :
    readFirst e ip (UInt8.ofNat (0x58 + low.val) :: rest) =
      some (.pop ⟨joinCode e.base low.val⟩, rest) := by
  match low with
  | 0 | 1 | 2 | 3 | 4 | 5 | 6 | 7 => rfl

theorem readFirst_loadImmediate (e : Extension) (ip : Nat) (low : Fin 8) (rest : Bytes) :
    readFirst e ip (UInt8.ofNat (0xB8 + low.val) :: rest) =
      (takeBytes 4 rest).map fun (taken, rest) =>
        (.loadImmediate ⟨joinCode e.base low.val⟩ (UInt32.ofNat (Bytes.ofLittleEndian taken)),
          rest) := by
  match low with
  | 0 | 1 | 2 | 3 | 4 | 5 | 6 | 7 => rfl

/-- The bytes of an encodable instruction are read back wherever they stand, whatever follows. -/
theorem readInstruction_encode {ip : Nat} {i : Instruction} (h : i.Encodable ip) (ip' : Nat)
    (rest : Bytes) :
    readInstruction ip' (i.encode ip ++ rest) = some (i.moved ip ip', rest) := by
  match i, h with
  | .push reg, _ =>
    have heq := @readInstruction_shortForm 0x50 (by decide) ip' reg [] rest
    rw [readFirst_push, Gpr.joinCode_low] at heq
    exact heq
  | .pop reg, _ =>
    have heq := @readInstruction_shortForm 0x58 (by decide) ip' reg [] rest
    rw [readFirst_pop, Gpr.joinCode_low] at heq
    exact heq
  | .ret, _ => rfl
  | .breakpoint, _ => rfl
  | .loadImmediate dst value, _ =>
    have heq := @readInstruction_shortForm 0xB8 (by decide) ip' dst
      (Bytes.littleEndian 4 value.toNat) rest
    have htake := takeBytes_append (Bytes.littleEndian 4 value.toNat) rest
    rw [Bytes.length_littleEndian] at htake
    rw [readFirst_loadImmediate, htake, Gpr.joinCode_low] at heq
    have hvalue : value.toNat % 256 ^ 4 = value.toNat := Nat.mod_eq_of_lt value.toNat_lt
    simp only [Option.map_some, Bytes.ofLittleEndian_littleEndian, hvalue,
      UInt32.ofNat_toNat] at heq
    exact heq
  | .addImmediate width dst value, h => exact readInstruction_add width dst h ip' rest
  | .shiftLeft dst count, h => exact readInstruction_shift h rfl ip'
  | .shiftRight dst count, h => exact readInstruction_shift h rfl ip'
  | .move dst src, _ =>
    obtain ⟨e, bytes, -, hread, heq⟩ := @readInstruction_form 0x89 [] (by decide) (fun _ => rfl)
      (.register dst.code) trivial ip' true src.code [] rest
    simp [Instruction.encode, heq, readFirst, hread, Instruction.moved]
  | .load width dst src, h =>
    obtain ⟨e, bytes, hwide, hread, heq⟩ := @readInstruction_form 0x8B [] (by decide)
      (fun _ => rfl) (.memory src) h ip' (width == .qword) dst.code [] rest
    simp [Instruction.encode, heq, readFirst, hread, hwide, width_of_wide, Instruction.moved]
  | .loadAddress dst src, h =>
    obtain ⟨e, bytes, -, hread, heq⟩ := @readInstruction_form 0x8D [] (by decide) (fun _ => rfl)
      (.memory src) h ip' true dst.code [] rest
    simp [Instruction.encode, heq, readFirst, hread, Instruction.moved]
  | .compare first second, _ =>
    obtain ⟨e, bytes, -, hread, heq⟩ := @readInstruction_form 0x39 [] (by decide) (fun _ => rfl)
      (.register first.code) trivial ip' true second.code [] rest
    simp [Instruction.encode, heq, readFirst, hread, Instruction.moved]
  | .xorLow dst src, _ =>
    obtain ⟨e, bytes, -, hread, heq⟩ := @readInstruction_form 0x31 [] (by decide) (fun _ => rfl)
      (.register dst.code) trivial ip' false src.code [] rest
    simp [Instruction.encode, heq, readFirst, hread, Instruction.moved]
  | .moveVector dst src, _ =>
    obtain ⟨e, bytes, -, hread, heq⟩ := @readInstruction_form 0x0F [0x28] (by decide)
      (fun _ => rfl) (.register src.code) trivial ip' false dst.code [] rest
    simp [Instruction.encode, heq, readFirst, readSecond, hread, Instruction.moved]
  | .loadVector dst src, h =>
    obtain ⟨e, bytes, -, hread, heq⟩ := @readInstruction_form 0x0F [0x28] (by decide)
      (fun _ => rfl) (.memory src) h ip' false dst.code [] rest
    simp [Instruction.encode, heq, readFirst, readSecond, hread, Instruction.moved]
  | .storeVector dst src, h =>
    obtain ⟨e, bytes, -, hread, heq⟩ := @readInstruction_form 0x0F [0x29] (by decide)
      (fun _ => rfl) (.memory dst) h ip' false src.code [] rest
    simp [Instruction.encode, heq, readFirst, readSecond, hread, Instruction.moved]
  | .packed op dst src, _ =>
    obtain ⟨e, bytes, -, hread, heq⟩ := @readInstruction_form 0x0F [op.opcode] (by decide)
      (fun _ => by cases op <;> rfl) (.register src.code) trivial ip' false dst.code [] rest
    simp only [Instruction.encode, heq]
    cases op <;> simp [Packed.opcode, readFirst, readSecond, hread, Instruction.moved]
  | .shuffle dst src control, _ =>
    obtain ⟨e, bytes, -, hread, heq⟩ := @readInstruction_form 0x0F [0xC6] (by decide)
      (fun _ => rfl) (.register src.code) trivial ip' false dst.code [control] rest
    simp [Instruction.encode, heq, readFirst, readSecond, hread, Instruction.moved]
  | .call target, h =>
    have heq := @readInstruction_extended {} 0xE8 (signedBytes 4 (distance ip 5 target) ++ rest)
      (by decide) rfl ip'
    exact heq.trans (by simp [readFirst, readSigned_dword h, Instruction.moved])
  | .callThrough slot, h =>
    obtain ⟨e, bytes, -, hread, heq⟩ := @readInstruction_form 0xFF [] (by decide) (fun _ => rfl)
      (.relative (distance ip 6 slot)) h ip' false 2 [] rest
    simp [Instruction.encode, heq, readFirst, hread, Instruction.moved]
  | .jumpBelow .short target, h =>
    have heq := @readInstruction_extended {} 0x72 (signedBytes 1 (distance ip 2 target) ++ rest)
      (by decide) rfl ip'
    exact heq.trans (by simp [readFirst, readSigned_byte h, Instruction.moved])
  | .jumpBelow .near target, h =>
    have heq := @readInstruction_extended {} 0x0F
      (0x82 :: (signedBytes 4 (distance ip 6 target) ++ rest)) (by decide) rfl ip'
    exact heq.trans (by simp [readFirst, readSecond, readSigned_dword h, Instruction.moved])
  | .pad n, _ =>
    have hpad : readPad ((Instruction.pad n).encode ip ++ rest) = _ := readPad_pad n rest
    simp only [readInstruction, hpad, Instruction.moved]

/-! ## Branches -/

/-- A branch goes where it should, counted around the end of the address space. -/
theorem branchTarget_distance {ip ip' : Nat} (hip : ip' = ip ∨ ip' = Word.ofInt ip)
    (length target : Nat) :
    branchTarget ip' length (distance ip length target) = Word.ofInt target := by
  unfold branchTarget distance Word.toSigned Word.ofInt
  unfold Word.ofInt at hip
  split <;> omega

namespace Instruction

/-- Whether an instruction holds an address. -/
def isBranch : Instruction → Bool
  | call _ | callThrough _ | jumpBelow .. => true
  | _ => false

/-- Without an address in it, an instruction can be encoded anywhere. -/
theorem Encodable.elsewhere {i : Instruction} {ip : Nat} (h : i.Encodable ip)
    (hfixed : i.isBranch = false) (ip' : Nat) : i.Encodable ip' := by
  cases i with
  | call _ | callThrough _ | jumpBelow _ _ => cases hfixed
  | _ => exact h

end Instruction

/-! ## Lengths -/

theorem length_displacement_le (base : Gpr) (disp : Int) : (displacement base disp).2.length ≤ 4 := by
  unfold displacement
  split
  · simp
  · split <;> simp

theorem length_operand_le (reg : Nat) (operand : Operand) : (operand.bytes reg).length ≤ 6 := by
  match operand with
  | .register code => exact Nat.le_of_ble_eq_true rfl
  | .relative disp => simp [Operand.bytes]
  | .memory ⟨some base, none, disp⟩ =>
    have := length_displacement_le base disp
    rw [bytes_based, List.length_append]
    unfold basedBytes
    split <;> simp <;> omega
  | .memory ⟨some base, some (index, scale), disp⟩ =>
    have := length_displacement_le base disp
    simp [Operand.bytes]
    omega
  | .memory ⟨none, some (index, scale), disp⟩ => simp [Operand.bytes]
  | .memory ⟨none, none, disp⟩ => simp [Operand.bytes]

theorem length_form_le (wide : Bool) (opcode : Bytes) (reg : Fin 16) (operand : Operand)
    (immediate : Bytes) :
    (form wide opcode reg operand immediate).length ≤ 7 + opcode.length + immediate.length := by
  have := length_extension_le { operand.extension with wide, reg := isHigh reg }
  have := length_operand_le reg.val operand
  unfold form
  rw [List.length_append, List.length_append, List.length_append]
  omega

theorem length_shortForm_le (opcode : Nat) (reg : Gpr) (immediate : Bytes) :
    (shortForm opcode reg immediate).length ≤ 2 + immediate.length := by
  have := length_extension_le { base := isHigh reg.code }
  simp only [shortForm, List.length_append, List.length_cons]
  omega

/-- No instruction is longer than the processor allows. -/
theorem length_encode_le (ip : Nat) (i : Instruction) :
    (i.encode ip).length ≤ maxInstructionLength := by
  have hmax : maxInstructionLength = 15 := rfl
  have formed : ∀ {wide : Bool} {opcode : Bytes} {reg : Fin 16} {operand : Operand}
      {immediate : Bytes}, opcode.length + immediate.length ≤ 8 →
      (form wide opcode reg operand immediate).length ≤ maxInstructionLength := by
    intro wide opcode reg operand immediate hle
    have := length_form_le wide opcode reg operand immediate
    omega
  have short : ∀ {opcode : Nat} {reg : Gpr} {immediate : Bytes}, immediate.length ≤ 13 →
      (shortForm opcode reg immediate).length ≤ maxInstructionLength := by
    intro opcode reg immediate hle
    have := length_shortForm_le opcode reg immediate
    omega
  cases i with
  | push | pop => exact short (by simp)
  | loadImmediate => exact short (by simp)
  | ret | breakpoint => exact Nat.le_of_ble_eq_true rfl
  | addImmediate width dst value =>
    simp only [Instruction.encode]
    split
    · have := length_extension_le { wide := width == .qword }
      simp
      omega
    · split <;> exact formed (by simp)
  | shiftLeft dst count => exact length_shiftBytes_le 4 dst count
  | shiftRight dst count => exact length_shiftBytes_le 7 dst count
  | move | load | loadAddress | compare | xorLow | moveVector | loadVector | storeVector | packed
  | shuffle | callThrough => exact formed (by simp)
  | call => simp [Instruction.encode, hmax]
  | jumpBelow span target => cases span <;> simp [Instruction.encode, hmax]
  | pad n =>
    have hpads : ∀ n : Fin 9, ((Instruction.pad n).encode 0).length ≤ 15 := by decide
    exact hpads n

end SplitRadix.Machine

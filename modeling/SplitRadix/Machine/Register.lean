/-!
# Registers and memory operands of x86-64

The sixteen general registers and the sixteen vector registers are given by their numbers; the low
three bits of a number stand in an operand field and the fourth in an extension bit. A memory
operand is a base, a scaled index and a signed 32-bit displacement, the first two optional.
-/

namespace SplitRadix.Machine

/-- There are sixteen registers of a kind, and numerals stand for them. -/
instance (priority := 20000) registers_ne_zero : @NeZero Nat Zero.ofOfNat0 16 := ⟨by decide⟩

/-- A general register. -/
structure Gpr where
  code : Fin 16
  deriving DecidableEq, Repr

namespace Gpr

def rax : Gpr := ⟨0⟩
def rcx : Gpr := ⟨1⟩
def rdx : Gpr := ⟨2⟩
def rbx : Gpr := ⟨3⟩
def rsp : Gpr := ⟨4⟩
def rbp : Gpr := ⟨5⟩
def rsi : Gpr := ⟨6⟩
def rdi : Gpr := ⟨7⟩
def r8 : Gpr := ⟨8⟩
def r9 : Gpr := ⟨9⟩
def r10 : Gpr := ⟨10⟩
def r11 : Gpr := ⟨11⟩
def r12 : Gpr := ⟨12⟩
def r13 : Gpr := ⟨13⟩
def r14 : Gpr := ⟨14⟩
def r15 : Gpr := ⟨15⟩

/-- All general registers in the order of their numbers. -/
def all : List Gpr :=
  [rax, rcx, rdx, rbx, rsp, rbp, rsi, rdi, r8, r9, r10, r11, r12, r13, r14, r15]

/-- The name of the register at its full width. -/
def name (r : Gpr) : String :=
  match r.code with
  | 0 => "rax" | 1 => "rcx" | 2 => "rdx" | 3 => "rbx"
  | 4 => "rsp" | 5 => "rbp" | 6 => "rsi" | 7 => "rdi"
  | n => s!"r{n}"

/-- The name of the low half of the register. -/
def name32 (r : Gpr) : String :=
  match r.code with
  | 0 => "eax" | 1 => "ecx" | 2 => "edx" | 3 => "ebx"
  | 4 => "esp" | 5 => "ebp" | 6 => "esi" | 7 => "edi"
  | n => s!"r{n}d"

end Gpr

/-- A vector register of four lanes. -/
structure Xmm where
  code : Fin 16
  deriving DecidableEq, Repr

def Xmm.name (r : Xmm) : String := s!"xmm{r.code}"

/-- How much of a general register an instruction works on. -/
inductive Width where
  | dword
  | qword
  deriving DecidableEq, Repr

def Gpr.nameAt (r : Gpr) : Width → String
  | .dword => r.name32
  | .qword => r.name

/-- What an index is multiplied by. -/
inductive Scale where
  | one | two | four | eight
  deriving DecidableEq, Repr

namespace Scale

/-- The scale as it stands in an operand field: its logarithm. -/
def code : Scale → Nat
  | one => 0
  | two => 1
  | four => 2
  | eight => 3

def ofCode : Nat → Scale
  | 0 => one
  | 1 => two
  | 2 => four
  | _ => eight

@[simp] theorem ofCode_code (s : Scale) : ofCode s.code = s := by
  cases s <;> rfl

def factor : Scale → Nat
  | one => 1
  | two => 2
  | four => 4
  | eight => 8

end Scale

/-- A memory operand. -/
structure Address where
  base : Option Gpr
  index : Option (Gpr × Scale) := none
  disp : Int := 0
  deriving DecidableEq, Repr

namespace Address

/-- The operand `[base + disp]`. -/
def offset (base : Gpr) (disp : Int) : Address := { base := some base, disp }

/-- The operand `[base + index * scale + disp]`. -/
def indexed (base index : Gpr) (scale : Scale) (disp : Int) : Address :=
  { base := some base, index := some (index, scale), disp }

/-- The operand `[index * scale]`. -/
def scaled (index : Gpr) (scale : Scale) : Address :=
  { base := none, index := some (index, scale) }

end Address

end SplitRadix.Machine

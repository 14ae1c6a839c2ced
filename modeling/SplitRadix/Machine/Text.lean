import SplitRadix.Machine.Instruction
import SplitRadix.Text.Hex
import SplitRadix.Word

/-!
# Instructions as text

The mnemonic stands in a column of eight characters; operands are joined by commas. Numbers up to
nine are decimal, larger ones hexadecimal with the suffix `h` and a leading zero before a letter. The
target of a branch is written with sixteen digits; a slot in memory is a number like any other. A
memory operand names its size only where no register tells it.
-/

namespace SplitRadix.Machine

/-- Mark hexadecimal digits as a number. -/
def markHex (digits : String) : String :=
  (if digits.front.isAlpha then "0" else "") ++ digits ++ "h"

/-- A number. -/
def numberText (n : Nat) : String := if n ≤ 9 then toString n else markHex (Text.hexUpper n)

/-- The address a branch goes to. -/
def targetText (n : Nat) : String :=
  if n ≤ 9 then toString n else markHex (Text.padStart 16 '0' (Text.hexUpper n))

/-- A displacement after other parts of an operand. -/
def displacementText (disp : Int) : String :=
  if disp = 0 then ""
  else (if disp < 0 then "-" else "+") ++ numberText disp.natAbs

namespace Address

/-- An index with its scale. -/
def indexText (index : Gpr) (scale : Scale) : String :=
  index.name ++ if scale = .one then "" else s!"*{scale.factor}"

/-- A memory operand. -/
def text (a : Address) : String :=
  let parts := (a.base.map Gpr.name).toList ++
    (a.index.map fun (index, scale) => indexText index scale).toList
  "[" ++ "+".intercalate parts ++ displacementText a.disp ++ "]"

end Address

def Packed.mnemonic : Packed → String
  | add => "addps"
  | sub => "subps"
  | mul => "mulps"
  | xor => "xorps"

/-- A mnemonic and its operands. -/
def line (mnemonic : String) (operands : List String) : String :=
  Text.padEnd 8 mnemonic ++ ",".intercalate operands

/-- An immediate as the processor sees it, extended to the width of the register. -/
def extended (width : Width) (value : Int) : Nat :=
  match width with
  | .dword => (value % 2 ^ 32).toNat
  | .qword => (value % 2 ^ 64).toNat

/-- The padding instructions by length. -/
def padText (n : Nat) : String :=
  match n with
  | 0 => "nop"
  | 1 => line "xchg" ["ax", "ax"]
  | 2 | 3 | 6 => line "nop" ["dword [rax]"]
  | 4 | 7 => line "nop" ["dword [rax+rax]"]
  | _ => line "nop" ["word [rax+rax]"]

def Span.text : Span → String
  | short => "short "
  | near => "near "

def Instruction.text : Instruction → String
  | push reg => line "push" [reg.name]
  | pop reg => line "pop" [reg.name]
  | ret => "ret"
  | breakpoint => "int3"
  | loadImmediate dst value => line "mov" [dst.name32, numberText value.toNat]
  | addImmediate width dst value =>
    line "add" [dst.nameAt width, numberText (extended width value)]
  | shiftLeft dst count => line "shl" [dst.name32, numberText count]
  | shiftRight dst count => line "sar" [dst.name32, numberText count]
  | move dst src => line "mov" [dst.name, src.name]
  | load width dst src => line "mov" [dst.nameAt width, src.text]
  | loadAddress dst src => line "lea" [dst.name, src.text]
  | compare first second => line "cmp" [first.name, second.name]
  | xorLow dst src => line "xor" [dst.name32, src.name32]
  | moveVector dst src => line "movaps" [dst.name, src.name]
  | loadVector dst src => line "movaps" [dst.name, src.text]
  | storeVector dst src => line "movaps" [dst.text, src.name]
  | packed op dst src => line op.mnemonic [dst.name, src.name]
  | shuffle dst src control => line "shufps" [dst.name, src.name, numberText control.toNat]
  | call target => line "call" [targetText target]
  | callThrough slot => line "call" ["qword [rel " ++ numberText slot ++ "]"]
  | jumpBelow span target => line "jb" [span.text ++ targetText target]
  | pad n => padText n.val

end SplitRadix.Machine

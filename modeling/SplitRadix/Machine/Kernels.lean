import SplitRadix.Kernel.Library
import SplitRadix.Machine.Encoding

/-!
# The kernels for x86-64

Each kernel is a list of lines: instructions, loads whose displacement is filled in later, additions
and subtractions that swap in the inverse direction, and the ends of its loop. None of them holds an
address, so a kernel can be copied anywhere.

Registers inside a routine:

| register | role |
|----------|------|
| `r9`     | input |
| `rbx`    | output |
| `r10`    | input index table |
| `r12`    | tables handed to the routine |
| `xmm15`  | rotation mask |
| `rax`    | index of the leaf passes |
| `ecx`    | bound of the leaf passes, then size of the next call |
| `rdx`    | output position of the next call |
| `r8`     | twiddle position of the next call |

A rotation always multiplies by -i; only the swapped additions and subtractions carry the
direction, so the rotation mask is the same for both.
-/

namespace SplitRadix.Machine

open Kernel
open Leaf (Pass)

/-- A line of a kernel. -/
inductive Line where
  | plain (instruction : Instruction)
  | patched (dst : Xmm) (base : Gpr)             -- a vector load with a displacement to fill in
  | flipped (op : Packed) (dst src : Xmm)        -- an addition or subtraction that swaps
  | loopHead
  | loopBack                                     -- back to the loop head while below the bound
  deriving DecidableEq, Repr

/-- The displacement of a load before it is filled in, too large for a short form. -/
def placeholder : Int := 0x10000000

/-- The bits in which an addition and a subtraction differ. -/
def flipMask : UInt8 := 0x04

/-- The lanes negated by a rotation. -/
def rotationMask : List UInt32 := [0, 0x80000000, 0, 0x80000000]

/-- A jump back to `head` from `ip`, as short as possible. -/
def jumpBack (ip head : Nat) : Instruction :=
  if fitsByte (distance ip 2 head) then .jumpBelow .short head else .jumpBelow .near head

/-- The instruction of a line at `ip`, in a loop that starts at `head`. -/
def Line.instruction? (ip head : Nat) : Line → Option Instruction
  | plain i => some i
  | patched dst base => some (.loadVector dst (.offset base placeholder))
  | flipped op dst src => some (.packed op dst src)
  | loopHead => none
  | loopBack => some (jumpBack ip head)

/-- A line with its place in the kernel and its bytes. -/
structure PlacedLine where
  line : Line
  offset : Nat
  bytes : Bytes
  deriving DecidableEq, Repr

/-- The offset after a line. -/
def PlacedLine.stop (p : PlacedLine) : Nat := p.offset + p.bytes.length

/-- Place lines from `ip` on, in a loop that starts at `head`. -/
def placeLines (ip head : Nat) : List Line → List PlacedLine
  | [] => []
  | line :: rest =>
    let bytes := ((line.instruction? ip head).map (Instruction.encode ip)).getD []
    let head := if line = .loopHead then ip else head
    ⟨line, ip, bytes⟩ :: placeLines (ip + bytes.length) head rest

/-- Where a displacement is filled in: it is the last field of its instruction. -/
def PlacedLine.site? (p : PlacedLine) : Option PatchSite :=
  match p.line with
  | .patched .. => some ⟨p.stop - 4, .displacement⟩
  | _ => none

/-- The byte that swaps: the opcode, which is the last byte but one. -/
def PlacedLine.flip? (p : PlacedLine) : Option Nat :=
  match p.line with
  | .flipped .. => some (p.stop - 2)
  | _ => none

/-- Where the loop starts. -/
def PlacedLine.entry? (p : PlacedLine) : Option Nat :=
  match p.line with
  | .loopHead => some p.offset
  | _ => none

/-- The template of a kernel. Mirrors `TemplateBuilder.finish`. -/
def template (name : String) (lines : List Line) : Template :=
  let placed := placeLines 0 0 lines
  { name
    bytes := placed.flatMap PlacedLine.bytes
    sites := placed.filterMap PlacedLine.site?
    flips := placed.filterMap PlacedLine.flip?
    flipMask
    loopEntry := placed.findSome? PlacedLine.entry? }

/-! ## Building blocks -/

def xmm (code : Fin 16) : Xmm := ⟨code⟩

/-- Copy `a` to `t`, add `b` to `a` and subtract it from `t`. Mirrors
`TemplateBuilder.butterfly`. -/
def butterfly (a b t : Xmm) : List Line :=
  [.plain (.moveVector t a), .plain (.packed .add a b), .plain (.packed .sub t b)]

/-- A butterfly whose two results swap in the inverse direction. Mirrors
`TemplateBuilder.flip_butterfly`. -/
def flippedButterfly (a b t : Xmm) : List Line :=
  [.plain (.moveVector t a), .flipped .add a b, .flipped .sub t b]

/-- Multiply by -i: swap the real and imaginary lanes, then negate the new imaginary ones. Mirrors
`TemplateBuilder.rotate`. -/
def rotate (a : Xmm) : List Line :=
  [.plain (.shuffle a a 0xB1), .plain (.packed .xor a (xmm 15))]

/-! ## Leaf passes -/

/-- Set `r11` to the input of a block, found through the index table. Mirrors `leaf_input_base`. -/
def leafInput : List Line :=
  [.plain (.load .dword .r11 (.indexed .r10 .rax .one 0)),
   .plain (.loadAddress .r11 (.indexed .r9 .r11 .eight 0))]

/-- Load the eight vectors of a block. Mirrors `leaf_loads`. -/
def leafLoads : List Line :=
  [.patched (xmm 0) .r11, .patched (xmm 1) .r11, .patched (xmm 2) .r11, .patched (xmm 3) .r11,
   .patched (xmm 4) .r11, .patched (xmm 5) .r11, .patched (xmm 6) .r11, .patched (xmm 7) .r11]

/-- The radix-8 butterflies of a block. Mirrors `leaf_butterflies`. -/
def leafButterflies : List Line :=
  butterfly (xmm 0) (xmm 1) (xmm 8) ++
  butterfly (xmm 2) (xmm 3) (xmm 9) ++
  butterfly (xmm 4) (xmm 5) (xmm 10) ++
  butterfly (xmm 6) (xmm 7) (xmm 11) ++
  rotate (xmm 9) ++
  rotate (xmm 11) ++
  butterfly (xmm 0) (xmm 2) (xmm 12) ++
  flippedButterfly (xmm 8) (xmm 9) (xmm 13) ++
  butterfly (xmm 4) (xmm 6) (xmm 14) ++
  flippedButterfly (xmm 10) (xmm 11) (xmm 2)

/-- The registers with the results of a block, in the order they are stored. -/
def leafResults (oddOutput : Bool) : List Xmm :=
  if oddOutput then
    [xmm 0, xmm 4, xmm 8, xmm 10, xmm 12, xmm 14, xmm 13, xmm 2]
  else
    [xmm 0, xmm 8, xmm 12, xmm 13, xmm 4, xmm 10, xmm 14, xmm 2]

/-- Store the eight results of a block, at 32 bytes times the index. Mirrors `leaf_stores`. -/
def leafStores (oddOutput : Bool) : List Line :=
  .plain (.loadAddress .rsi (.scaled .rax .four)) ::
  (leafResults oddOutput).zipIdx.map fun (src, i) =>
    .plain (.storeVector (.indexed .rdx .rsi .eight (16 * i : Nat)) src)

/-- One block of a leaf pass: it moves the index on by four. -/
def leafBlock (pass : Pass) : List Line :=
  leafInput ++ leafLoads ++ leafButterflies ++ leafStores pass.oddOutput ++
  [.plain (.addImmediate .qword .rax 4)]

/-- A leaf pass. The passes of equal parity repeat their block until the index reaches the bound.
Mirrors `leaf_pass`. -/
def leafPass (pass : Pass) : List Line :=
  if pass.loops then
    .loopHead :: leafBlock pass ++ [.plain (.compare .rax .rcx), .loopBack]
  else
    leafBlock pass

/-! ## Base cases -/

/-- Load four quarters that lie `rax` bytes apart from `start` on; `thrice` holds three times `rax`. -/
def quarterLoads (start thrice : Gpr) : List Line :=
  [.plain (.loadVector (xmm 0) (.offset start 0)),
   .plain (.loadVector (xmm 1) (.indexed start .rax .one 0)),
   .plain (.loadVector (xmm 2) (.indexed start .rax .two 0)),
   .plain (.loadVector (xmm 3) (.indexed start thrice .one 0))]

/-- Store the four quarters again, the last two from `third` and `fourth`. -/
def quarterStores (start thrice : Gpr) (third fourth : Xmm) : List Line :=
  [.plain (.storeVector (.offset start 0) (xmm 0)),
   .plain (.storeVector (.indexed start .rax .one 0) (xmm 1)),
   .plain (.storeVector (.indexed start .rax .two 0) third),
   .plain (.storeVector (.indexed start thrice .one 0) fourth)]

/-- The smallest base case: one radix-4 step over the quarters at `rdx`, which lie twice `rcx` bytes
apart. Mirrors `base_case_x4`. -/
def baseCase4 : List Line :=
  [.plain (.loadAddress .rax (.indexed .rcx .rcx .one 0)),
   .plain (.loadAddress .rsi (.indexed .rax .rax .two 0))] ++
  quarterLoads .rdx .rsi ++
  [.plain (.loadVector (xmm 8) (.offset .r8 0)),
   .plain (.packed .mul (xmm 2) (xmm 8)),
   .plain (.packed .mul (xmm 3) (xmm 8))] ++
  butterfly (xmm 2) (xmm 3) (xmm 9) ++
  rotate (xmm 9) ++
  butterfly (xmm 0) (xmm 2) (xmm 10) ++
  flippedButterfly (xmm 1) (xmm 9) (xmm 11) ++
  quarterStores .rdx .rsi (xmm 10) (xmm 11) ++
  [.plain .ret]

/-- The other base case: radix-4 steps over the quarters at `rdx`, with the twiddles from `r8` on,
until the first quarter is used up. Mirrors `base_case_x8`. -/
def baseCase8 : List Line :=
  [.plain (.loadAddress .rax (.indexed .rcx .rcx .one 0)),
   .plain (.loadAddress .r10 (.indexed .rax .rax .two 0)),
   .plain (.move .r11 .rdx),
   .plain (.move .rsi .r8),
   .plain (.loadAddress .rdi (.indexed .rdx .rax .one 0)),
   .loopHead] ++
  quarterLoads .r11 .r10 ++
  [.plain (.loadVector (xmm 8) (.offset .rsi 0)),
   .plain (.loadVector (xmm 9) (.offset .rsi 16)),
   .plain (.packed .mul (xmm 2) (xmm 8)),
   .plain (.packed .mul (xmm 3) (xmm 9))] ++
  butterfly (xmm 2) (xmm 3) (xmm 6) ++
  rotate (xmm 6) ++
  butterfly (xmm 0) (xmm 2) (xmm 4) ++
  flippedButterfly (xmm 1) (xmm 6) (xmm 5) ++
  quarterStores .r11 .r10 (xmm 4) (xmm 5) ++
  [.plain (.addImmediate .qword .r11 16),
   .plain (.addImmediate .qword .rsi 32),
   .plain (.compare .r11 .rdi),
   .loopBack,
   .plain .ret]

/-! ## Glue between the kernels -/

/-- Reset the index of the leaf passes and point to the output. Mirrors `leaf_init`. -/
def leafInit : List Line := [.plain (.xorLow .rax .rax), .plain (.move .rdx .rbx)]

/-- Go back to the start of the output and of the twiddles. Mirrors `bridge`. -/
def bridge : List Line := [.plain (.move .rdx .rbx), .plain (.load .qword .r8 (.offset .r12 0))]

/-! ## The library -/

def x4Template : Template := template "x4" baseCase4

def x8Template : Template := template "x8" baseCase8

def leafInitTemplate : Template := template "leaf_init" leafInit

def bridgeTemplate : Template := template "bridge" bridge

def evenEvenTemplate : Template := template Pass.evenEven.fragmentName (leafPass .evenEven)

def oddOddTemplate : Template := template Pass.oddOdd.fragmentName (leafPass .oddOdd)

def evenOddTemplate : Template := template Pass.evenOdd.fragmentName (leafPass .evenOdd)

def oddEvenTemplate : Template := template Pass.oddEven.fragmentName (leafPass .oddEven)

/-- All kernels. Mirrors `build_library`. -/
def kernels : Library where
  x4 := x4Template
  x8 := x8Template
  leafInit := leafInitTemplate
  bridge := bridgeTemplate
  leaf
    | .evenEven => evenEvenTemplate
    | .oddOdd => oddOddTemplate
    | .evenOdd => evenOddTemplate
    | .oddEven => oddEvenTemplate

end SplitRadix.Machine

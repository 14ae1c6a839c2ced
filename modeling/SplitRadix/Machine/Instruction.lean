import SplitRadix.Machine.Register

/-!
# Instructions

The part of x86-64 that routines are made of: moves between general registers and memory, the few
integer operations of the loops and the call chain, packed single-precision arithmetic, branches,
and the padding instructions. A branch holds the address it goes to, not its distance.
-/

namespace SplitRadix.Machine

/-- Operations on the four lanes of two vectors. -/
inductive Packed where
  | add | sub | mul | xor
  deriving DecidableEq, Repr

/-- The opposite of an addition is a subtraction and the other way round. -/
def Packed.flip : Packed → Packed
  | add => sub
  | sub => add
  | mul => mul
  | xor => xor

/-- How far a conditional jump can reach. -/
inductive Span where
  | short    -- a signed byte
  | near     -- a signed 32-bit distance
  deriving DecidableEq, Repr

inductive Instruction where
  | push (reg : Gpr)
  | pop (reg : Gpr)
  | ret
  | breakpoint
  | loadImmediate (dst : Gpr) (value : UInt32)    -- clears the upper half
  | addImmediate (width : Width) (dst : Gpr) (value : Int)
  | shiftLeft (dst : Gpr) (count : Nat)           -- lower half
  | shiftRight (dst : Gpr) (count : Nat)          -- lower half, keeps the sign
  | move (dst src : Gpr)
  | load (width : Width) (dst : Gpr) (src : Address)
  | loadAddress (dst : Gpr) (src : Address)
  | compare (first second : Gpr)
  | xorLow (dst src : Gpr)                        -- lower half
  | moveVector (dst src : Xmm)
  | loadVector (dst : Xmm) (src : Address)
  | storeVector (dst : Address) (src : Xmm)
  | packed (op : Packed) (dst src : Xmm)
  | shuffle (dst src : Xmm) (control : UInt8)
  | call (target : Nat)
  | callThrough (slot : Nat)                      -- to the address stored at `slot`
  | jumpBelow (span : Span) (target : Nat)
  | pad (form : Fin 9)                            -- no operation, `form + 1` bytes
  deriving DecidableEq, Repr

end SplitRadix.Machine

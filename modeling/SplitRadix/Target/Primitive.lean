import SplitRadix.Word

/-!
# Primitives

The instructions that a routine has between its kernels. They name registers by the role they play;
a target decides which register that is and how the instruction is encoded.
-/

namespace SplitRadix.Target

/-- What a register is used for. Mirrors `RegRole`. -/
inductive Role where
  | loopCounter    -- bound of the leaf passes
  | size           -- size of the next call
  | output         -- output position of the next call
  | lut            -- twiddle position of the next call
  deriving DecidableEq, Repr

inductive Primitive where
  | prologue
  | epilogue
  | load (role : Role) (value : UInt32)
  | add (role : Role) (delta : Int)       -- a signed 32-bit number
  | shift (role : Role) (amount : Int)    -- left if positive, arithmetically right if negative
  | call (target : Nat)                   -- an address
  deriving DecidableEq, Repr

/-- An instruction that a target cannot encode. -/
inductive EncodingError where
  | invalidRegister
  | immediateOutOfRange (operation : String) (value : Int)
  | assembly (reason : String)
  deriving DecidableEq, Repr

def EncodingError.message : EncodingError → String
  | invalidRegister => "Invalid register for operation"
  | immediateOutOfRange operation value => s!"Immediate {value} out of range for {operation}"
  | assembly reason => s!"Assembly error: {reason}"

end SplitRadix.Target

import SplitRadix.Code.Buffer
import SplitRadix.Kernel.Template
import SplitRadix.Scratch.Session
import SplitRadix.Target.Primitive
import SplitRadix.Transform.Parameters

/-!
# Errors of a generation

A request is refused for its size, for a plan that does not belong to it, for lack of scratch memory
or for a region that may be too small; all that is found out before the first byte is written. The
other errors come from writing.
-/

namespace SplitRadix

/-- How a plan fails to fit a request. -/
inductive Mismatch where
  | otherTransform (planSize planLeaf size leaf : Nat)
  | table (cause : Transform.ParameterError)
  | noTableEntry (size : Nat)
  deriving DecidableEq, Repr

def Mismatch.message : Mismatch → String
  | otherTransform planSize planLeaf size leaf =>
    s!"plan is for N={planSize} leaf={planLeaf}, requested N={size} leaf={leaf}"
  | table cause => cause.message
  | noTableEntry size => s!"no lookup-table entry for subtransform of size {size}"

inductive GenerateError where
  | invalidSize (size leaf : Nat)
  | planMismatch (reason : Mismatch)
  | regionTooSmall (required available : Nat)
  | scratch (cause : Scratch.ScratchError)
  | buffer (cause : Code.BufferError)
  | template (cause : Kernel.TemplateError)
  | encoding (cause : Target.EncodingError)
  deriving DecidableEq, Repr

def GenerateError.message : GenerateError → String
  | invalidSize size leaf => s!"Unsupported transform size {size} for leaf size {leaf}"
  | planMismatch reason => "Plan mismatch: " ++ reason.message
  | regionTooSmall required available =>
    s!"Code region too small: {required} bytes required, {available} available"
  | scratch cause => cause.message
  | buffer cause => cause.message
  | template cause => cause.message
  | encoding cause => cause.message

end SplitRadix

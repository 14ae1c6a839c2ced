import SplitRadix.Decomposition.Basic
import SplitRadix.Leaf.Pass
import SplitRadix.Target.Error
import SplitRadix.Transform.Direction

/-!
# Events

What a generation tells about itself as it goes along.
-/

namespace SplitRadix

inductive Level where
  | warn
  | debug
  | trace
  deriving DecidableEq, Repr

inductive Event where
  | targetReady (target : String) (largestTemplate : Nat)
  | regionTooSmall (available size required : Nat)
  | planned (size leaf nodes : Nat) (passes : List Leaf.Pass)
  | aligned (address padding : Nat)
  | padded (template : String) (padding : Nat)
  | callSite (index : Nat) (node : Node) (lut target : Nat)
  | generated (size : Nat) (direction : Direction) (length callSites updates elided : Nat)
  | failed (size : Nat) (cause : GenerateError)
  deriving DecidableEq, Repr

namespace Event

def level : Event → Level
  | regionTooSmall .. => .warn
  | targetReady .. | planned .. | generated .. | failed .. => .debug
  | aligned .. | padded .. | callSite .. => .trace

/-- The event in words, with addresses written by `address`. -/
def text (address : Nat → String) : Event → String
  | targetReady target largest => s!"{target} backend ready, largest template {largest} bytes"
  | regionTooSmall available size required =>
    s!"region of {available} bytes cannot hold N={size} (needs up to {required})"
  | planned size leaf nodes passes =>
    s!"N={size} leaf={leaf}: {nodes} subtransforms, leaf passes [" ++
      ", ".intercalate (passes.map fun pass => "\"" ++ pass.shortName ++ "\"") ++ "]"
  | aligned place padding => "aligned " ++ address place ++ s!" with {padding} bytes"
  | padded template padding => s!"{template}: {padding} bytes of padding"
  | callSite index node lut target =>
    s!"call site {index}: N={node.size} offset={node.offset} lut={lut} -> " ++ address target
  | generated size direction length callSites updates elided =>
    s!"generated N={size} {direction.name}: {length} bytes, {callSites} call sites, " ++
      s!"{updates} updates ({elided} elided)"
  | failed size cause => s!"generation of N={size} failed: {cause.message}"

end Event

end SplitRadix

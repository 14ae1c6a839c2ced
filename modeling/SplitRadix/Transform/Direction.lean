/-!
# Transform direction

The kernels are written for the forward direction; the inverse one swaps an addition and a
subtraction at marked places.
-/

namespace SplitRadix

inductive Direction where
  | forward    -- sign -1, the kernels as they stand
  | inverse    -- sign +1, the marked bytes flipped
  deriving DecidableEq, Repr

namespace Direction

/-- A negative sign is the forward direction. Mirrors `Direction.from_sign`. -/
def ofSign (sign : Int) : Direction := if sign < 0 then forward else inverse

def sign : Direction → Int
  | forward => -1
  | inverse => 1

def isInverse : Direction → Bool
  | forward => false
  | inverse => true

def name : Direction → String
  | forward => "Forward"
  | inverse => "Inverse"

end Direction

end SplitRadix

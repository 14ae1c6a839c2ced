import SplitRadix.Leaf.Offsets
import SplitRadix.Leaf.Pass
import SplitRadix.Transform.Size

/-!
# The leaf schedule

Which leaf passes run, in which order and with which offsets, follows from two bits: the parity of
log2 N, and whether there are secondary blocks. The loop bound starts at four times the primary
count and grows as passes are added; a pass that loops after the first has the bound loaded anew.
The counts are taken modulo 2^32 and all sums are 32-bit words.
-/

namespace SplitRadix.Leaf

open Transform (IterationCounts)

/-- One leaf pass of a routine. Mirrors `LeafStep`. -/
structure Step where
  pass : Pass
  order : OffsetOrder
  reload : Option Nat    -- loop bound to load before the pass
  aligned : Bool         -- whether the loop head goes on a fetch boundary
  deriving DecidableEq, Repr

/-- The leaf passes of a routine in order. Mirrors `LeafSchedule`. -/
structure Schedule where
  initial : Nat    -- loop bound loaded before the first pass
  steps : List Step
  final : Nat      -- loop bound after the last pass
  deriving DecidableEq, Repr

/-- Whether log2 `n` is odd. Mirrors `is_odd_size`. -/
def isOddSize (n : Nat) : Bool := Word.trailingZeros n % 2 == 1

/-- The first pass. -/
def Step.opening : Step := ⟨.evenEven, .primary, none, true⟩

/-- The odd-odd pass up to the loop bound `bound`. -/
def Step.oddOdd (bound : Nat) : Step := ⟨.oddOdd, .rotated, some bound, true⟩

/-- The last even-even pass up to the loop bound `bound`. -/
def Step.closing (bound : Nat) : Step := ⟨.evenEven, .trailing, some bound, true⟩

/-- The single block of mixed parity after an odd-odd pass. -/
def Step.oddEven : Step := ⟨.oddEven, .rotated, none, false⟩

/-- The single block of mixed parity before an odd-odd pass. -/
def Step.evenOdd : Step := ⟨.evenOdd, .primary, none, false⟩

/-- The schedule of a transform of size `n`. An odd size has its odd-odd pass before the mixed
block, an even size after it. Mirrors `leaf_schedule`. -/
def Schedule.make (n : Nat) (counts : IterationCounts) : Except Fault Schedule := do
  let initial ← Word.mul32 4 (Word.low32 counts.primary)
  let secondary ← Word.mul32 4 (Word.low32 counts.secondary)
  if secondary = 0 then
    let bound ← Word.add32 initial 4
    let mixed := if isOddSize n then Step.oddEven else Step.evenOdd
    return ⟨initial, [.opening, mixed], bound⟩
  else if isOddSize n then
    let odd ← Word.add32 initial secondary
    let mixed ← Word.add32 odd 4
    let bound ← Word.add32 mixed secondary
    return ⟨initial, [.opening, .oddOdd odd, .oddEven, .closing bound], bound⟩
  else
    let mixed ← Word.add32 initial 4
    let odd ← Word.add32 mixed secondary
    let bound ← Word.add32 odd secondary
    return ⟨initial, [.opening, .evenOdd, .oddOdd odd, .closing bound], bound⟩

end SplitRadix.Leaf

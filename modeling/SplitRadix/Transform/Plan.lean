import SplitRadix.Code.Region
import SplitRadix.Transform.Parameters

/-!
# Plans

A plan is the parameters of a transform together with the region its routine is written into.
-/

namespace SplitRadix.Transform

structure Plan where
  parameters : Parameters
  region : Region
  deriving DecidableEq, Repr

namespace Plan

/-- A plan with a new region of `capacity` bytes at `base`. Mirrors `Plan.new`. -/
def make (parameters : Parameters) (base capacity : Nat) : Except Fault Plan := do
  return { parameters, region := ← Region.make base capacity }

/-- The first `n` bytes of the region. Mirrors `Plan.code`. -/
def code (plan : Plan) (n : Nat) : Bytes := plan.region.code n

/-- The plan in words, with the region's address written by `address`. -/
def describe (address : Nat → String) (plan : Plan) : String :=
  let p := plan.parameters
  "Plan \x7b parameters: TransformParameters \x7b " ++
  s!"size: {p.size}, leaf: {p.leaf}, iterations: IterationCounts \x7b " ++
  s!"primary: {p.iterations.primary}, secondary: {p.iterations.secondary} \x7d, " ++
  "lut_table: [" ++ ", ".intercalate (p.table.map toString) ++ "] \x7d, region: " ++
  plan.region.describe address ++ " \x7d"

end Plan

end SplitRadix.Transform

import BrilFlow.Cfg.Reach
import BrilFlow.Analysis.Fact

/-! Dataflow problems: a direction, the start value, the merge, the transfer of each block, and a
`height` bounding how often what leaves one block can change. -/
namespace BrilFlow

/-- A dataflow problem with values `α` over the blocks of one graph. -/
structure Problem (α : Type) where
  direction : Direction
  init : α
  empty : α
  merge : List α → α
  transfer : Nat → α → α
  view : α → FactValue
  height : Nat

end BrilFlow

namespace BrilFlow

/-- The number of operations, destinations and arguments of a graph's blocks: a bound on the
variables, definition sites and expressions of the function. -/
def Cfg.weight (g : Cfg) : Nat :=
  (g.blocks.toList.map fun nb =>
    (nb.block.ops.map fun o => 1 + o.args.length + (if o.dest.isSome then 1 else 0)).foldr
      (· + ·) 0).foldr (· + ·) 0

end BrilFlow

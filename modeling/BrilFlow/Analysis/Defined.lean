import BrilFlow.Analysis.Problem

/-! Defined variables: forwards, the variables written on some path from the entry. A block adds
the variables it writes; merging is union; the entry receives nothing. -/
namespace BrilFlow

def definedProblem (g : Cfg) : Problem (List String) where
  direction := .forward
  init := []
  empty := []
  merge := Sorted.unionAll
  transfer := fun i input => Sorted.union input (((g.block? i).map Block.defs).getD [])
  view := .set
  height := g.weight + 1

end BrilFlow

import BrilFlow.Analysis.Problem

/-! Live variables: backwards, the variables read on some path before being written. Merging is
union and the last block's live-out is empty. -/
namespace BrilFlow

def liveProblem (g : Cfg) : Problem (List String) where
  direction := .backward
  init := []
  empty := []
  merge := Sorted.unionAll
  transfer := fun i out =>
    match g.block? i with
    | some b => Sorted.union b.upwardExposed (Sorted.diff out b.defs)
    | none => out
  view := .set
  height := g.weight + 1

end BrilFlow

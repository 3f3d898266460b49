import BrilFlow.Cfg.Basic

/-! Reachability by a first-in first-out queue from `start`: a block taken unvisited is marked and
queues its unvisited flow-out neighbours. One pop more than there are flow-out entries is enough. -/
namespace BrilFlow
namespace Cfg

/-- Takes block `b` from the front of the queue. An index out of range counts as visited: a
built graph never queues one. -/
def visitBlock (g : Cfg) (d : Direction) (b : Nat) (queue : List Nat) (visited : Array Bool) :
    List Nat × Array Bool :=
  if visited[b]?.getD true then (queue, visited)
  else
    let visited := visited.setIfInBounds b true
    (queue ++ (g.flowOut b d).filter fun n => !(visited[n]?.getD true), visited)

/-- Takes blocks from the front of the queue until it is empty, at most `fuel` of them. -/
def visitQueue (g : Cfg) (d : Direction) : Nat → List Nat → Array Bool → Array Bool
  | 0, _, visited => visited
  | _ + 1, [], visited => visited
  | fuel + 1, b :: queue, visited =>
    let next := g.visitBlock d b queue visited
    g.visitQueue d fuel next.1 next.2

/-- Which blocks are reachable from `start` in a direction. -/
def reachableFrom (g : Cfg) (start : Nat) (d : Direction) : Array Bool :=
  if g.size ≤ start then Array.replicate g.size false
  else g.visitQueue d (1 + (List.range g.size).foldr (fun i n => (g.flowOut i d).length + n) 0) [start]
    (Array.replicate g.size false)

def reachable (g : Cfg) (d : Direction) : Array Bool :=
  match g.start? d with
  | some s => g.reachableFrom s d
  | none => #[]

end Cfg
end BrilFlow

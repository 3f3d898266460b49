import BrilFlow.Cfg.Basic

/-! Breadth-first distances from the entry by a first-in first-out queue; every block is queued at
most once, so as many pops as blocks are enough. -/
namespace BrilFlow
namespace Cfg

/-- Marks each unmarked successor of `b` with one more than the distance of `b` and queues it. -/
def enqueueSuccessors (g : Cfg) (b : Nat) (queue : List Nat) (dist : Array (Option Nat)) :
    List Nat × Array (Option Nat) :=
  let d := (dist[b]?.getD none).getD 0 + 1
  (g.successors b).foldl (fun (acc : List Nat × Array (Option Nat)) s =>
    if acc.2[s]? == some none then (acc.1 ++ [s], acc.2.setIfInBounds s (some d))
    else acc) (queue, dist)

def searchQueue (g : Cfg) : Nat → List Nat → Array (Option Nat) → Array (Option Nat)
  | 0, _, dist => dist
  | _ + 1, [], dist => dist
  | fuel + 1, b :: queue, dist =>
    let next := g.enqueueSuccessors b queue dist
    g.searchQueue fuel next.1 next.2

/-- The distance of every block from `start`, `none` where no path leads. -/
def distancesFrom (g : Cfg) (start : Nat) : Array (Option Nat) :=
  g.searchQueue g.size [start] ((Array.replicate g.size none).setIfInBounds start (some 0))

def pathLengths (g : Cfg) : List (Nat × Nat) :=
  match g.entry? with
  | none => []
  | some e =>
    let dist := g.distancesFrom e
    (List.range g.size).filterMap fun i => (dist[i]?.getD none).map (i, ·)

end Cfg
end BrilFlow

import BrilFlow.Analysis.Problem
import BrilFlow.Analysis.Worklist

/-! The worklist engine. Only blocks reachable from the start take part; a block taken from the
worklist merges what its reachable flow-in neighbours send, applies its transfer, and queues its
reachable flow-out neighbours when what it sends changes. -/
namespace BrilFlow

/-- The values the engine found, per block (`none` for blocks that did not take part), and how
many times it took a block from the worklist. -/
structure Solution (α : Type) where
  input : Array (Option α)
  output : Array (Option α)
  visits : Nat
deriving DecidableEq, Repr

def Solution.isReachable (s : Solution α) (i : Nat) : Bool := (s.output[i]?.join).isSome

structure EngineState (α : Type) where
  flowIn : Array (Option α)
  flowOut : Array (Option α)
  work : Worklist
  visits : Nat

variable {α : Type} [DecidableEq α]

def EngineState.visit (g : Cfg) (p : Problem α) (reach : Array Bool) (start : Nat)
    (s : EngineState α) (node : Nat) : EngineState α :=
  let reached := fun (q : Nat) => reach[q]?.getD false
  let incoming := (g.flowIn node p.direction).filterMap fun q =>
    if reached q then s.flowOut[q]?.join else none
  let input := if node = start ∧ incoming.isEmpty then p.init else p.merge incoming
  let output := p.transfer node input
  let flowIn := s.flowIn.setIfInBounds node (some input)
  if s.flowOut[node]?.join = some output then { s with flowIn }
  else
    let work := (g.flowOut node p.direction).foldl
      (fun w n => if reached n then w.push n else w) s.work
    { s with flowIn, flowOut := s.flowOut.setIfInBounds node (some output), work }

/-- Takes blocks from the worklist until it is empty, at most `fuel` times. -/
def EngineState.run (g : Cfg) (p : Problem α) (reach : Array Bool) (start : Nat) :
    Nat → EngineState α → EngineState α
  | 0, s => s
  | fuel + 1, s =>
    match s.work.pop? (s.work.draw s.visits) with
    | none => s
    | some (node, work) =>
      EngineState.run g p reach start fuel
        ((({ s with work, visits := s.visits + 1 } : EngineState α)).visit g p reach start node)

/-- A bound on the number of blocks taken: every block once, and then, for every change of a
block's value, its flow-out neighbours. -/
def Problem.fuel (g : Cfg) (p : Problem α) : Nat :=
  let edges := ((List.range g.size).map fun i => (g.flowOut i p.direction).length).foldr (· + ·) 0
  g.size + g.size * (p.height + 1) * (edges + 1) + 1

/-- Solves a problem, the blocks first sending `seed` where it has a value. -/
def Problem.solveFrom (g : Cfg) (p : Problem α) (config : EngineConfig)
    (seed : Option (Array (Option α))) : Solution α :=
  match g.start? p.direction with
  | none => { input := #[], output := #[], visits := 0 }
  | some start =>
    let reach := g.reachableFrom start p.direction
    let reached := fun (q : Nat) => reach[q]?.getD false
    let flowIn := (Array.replicate g.size none).setIfInBounds start (some p.init)
    let flowOut := (Array.range g.size).map fun n =>
      if reached n then some (((seed.bind (·[n]?)).join).getD p.init) else none
    let order := match p.direction with
      | .forward => List.range g.size
      | .backward => (List.range g.size).reverse
    let work := order.foldl (fun w n => if reached n then w.push n else w)
      (Worklist.empty g.size config)
    let s := EngineState.run g p reach start (p.fuel g) { flowIn, flowOut, work, visits := 0 }
    match p.direction with
    | .forward => { input := s.flowIn, output := s.flowOut, visits := s.visits }
    | .backward => { input := s.flowOut, output := s.flowIn, visits := s.visits }

def Problem.solve (g : Cfg) (p : Problem α) (config : EngineConfig) : Solution α :=
  p.solveFrom g config none

/-- Solves a problem again, every block first sending what it sent in `first`. -/
def Problem.solveSeeded (g : Cfg) (p : Problem α) (config : EngineConfig)
    (first : Solution α) : Solution α :=
  p.solveFrom g config (some (match p.direction with
    | .forward => first.output
    | .backward => first.input))

end BrilFlow

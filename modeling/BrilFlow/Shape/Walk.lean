import BrilFlow.Cfg.Basic

/-! Depth-first walks by a stack of blocks, each with its next successor index: unseen successors
are pushed, edges into active blocks are retreating, and finished blocks give reverse postorder. -/
namespace BrilFlow

inductive Visit where
  | unseen
  | active
  | finished
deriving DecidableEq, Repr, Inhabited

structure Walk where
  state : Array Visit
  /-- Finished blocks, latest first. -/
  finished : List Nat
  /-- Retreating edges, latest first. -/
  retreating : List (Nat × Nat)
deriving Inhabited

namespace Walk

/-- One step from the top of the stack of blocks and next successor indices. -/
def step (g : Cfg) : List (Nat × Nat) → Walk → List (Nat × Nat) × Walk
  | [], w => ([], w)
  | (b, next) :: rest, w =>
    match (g.successors b)[next]? with
    | some s =>
      let stack := (b, next + 1) :: rest
      match w.state[s]? with
      | some .unseen => ((s, 0) :: stack, { w with state := w.state.setIfInBounds s .active })
      | some .active => (stack, { w with retreating := (b, s) :: w.retreating })
      | _ => (stack, w)
    | none => (rest, { w with state := w.state.setIfInBounds b .finished, finished := b :: w.finished })

/-- Steps until the stack is empty, at most `fuel` times, returning the stack left and the walk. -/
def loop (g : Cfg) : Nat → List (Nat × Nat) → Walk → List (Nat × Nat) × Walk
  | 0, stack, w => (stack, w)
  | _ + 1, [], w => ([], w)
  | fuel + 1, top :: rest, w =>
    let next := step g (top :: rest) w
    loop g fuel next.1 next.2

end Walk

namespace Cfg

/-- The walk from the entry with the stack it leaves, a step for each block and successor entry. -/
def depthFirstRun (g : Cfg) : List (Nat × Nat) × Walk :=
  match g.entry? with
  | none => ([], ⟨#[], [], []⟩)
  | some e => Walk.loop g (g.size + g.edges.length) [(e, 0)]
      ⟨(Array.replicate g.size .unseen).setIfInBounds e .active, [], []⟩

def depthFirst (g : Cfg) : Walk := g.depthFirstRun.2

def reversePostorder (g : Cfg) : List Nat := g.depthFirst.finished

/-- The retreating edges of the walk, in the order the walk takes them. -/
def backEdges (g : Cfg) : List (Nat × Nat) := g.depthFirst.retreating.reverse

end Cfg
end BrilFlow

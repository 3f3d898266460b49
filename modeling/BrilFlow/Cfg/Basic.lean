import BrilFlow.Cfg.Naming

/-! Control-flow graphs over named blocks. A block ending in `ret` has no successors, one ending in
`jmp` or `br` has the blocks its labels name, in order and with repeats, and any other falls
through; building fails on the first label that names no block. -/
namespace BrilFlow

inductive Direction where
  | forward
  | backward
deriving DecidableEq, Repr, Inhabited

/-- A control-flow graph over named blocks. -/
structure Cfg where
  blocks : Array NamedBlock
  succs : Array (List Nat)
  preds : Array (List Nat)
deriving Inhabited

def indexOfName (blocks : Array NamedBlock) (name : String) : Option Nat :=
  blocks.findIdx? (·.name == name)

def successorsOf (blocks : Array NamedBlock) (index : Nat) (nb : NamedBlock) :
    Except BlockError (List Nat) :=
  match nb.block.control? with
  | some o =>
    if o.op == "ret" then pure []
    else o.labels.mapM fun l =>
      match indexOfName blocks l with
      | some j => pure j
      | none => throw (.unknownLabel nb.name l)
  | none => pure (if index + 1 < blocks.size then [index + 1] else [])

/-- Records block `src` among the predecessors of `dst`, unless it is there already. -/
def recordPredecessor (src : Nat) (preds : Array (List Nat)) (dst : Nat) : Array (List Nat) :=
  preds.modify dst fun ps => if ps.contains src then ps else ps ++ [src]

def insertIndex (x : Nat) : List Nat → List Nat
  | [] => [x]
  | y :: ys => if x ≤ y then x :: y :: ys else y :: insertIndex x ys

def sortIndices (xs : List Nat) : List Nat := xs.foldr insertIndex []

/-- The predecessor lists: each block, in order, is recorded once among the predecessors of every
block it lists as a successor, and then every list is sorted. -/
def predecessorLists (succs : Array (List Nat)) : Array (List Nat) :=
  let preds := (List.range succs.size).foldl (fun preds src =>
    (succs[src]?.getD []).foldl (recordPredecessor src) preds) (Array.replicate succs.size [])
  preds.map sortIndices

namespace Cfg

def ofBlocks (blocks : List NamedBlock) : Except BlockError Cfg := do
  let arr := blocks.toArray
  let succs ← (List.range arr.size).mapM fun i => successorsOf arr i (arr[i]?.getD default)
  let succs := succs.toArray
  return { blocks := arr, succs, preds := predecessorLists succs }

/-- The graph of a function: its blocks, named and completed with jumps and returns. -/
def ofFunction (f : Function) : Except BlockError Cfg := do
  let named ← nameBlocks (partition f.instrs)
  ofBlocks (addTerminators named)

def size (g : Cfg) : Nat := g.blocks.size

/-- The name of a block, `""` out of range. -/
def name (g : Cfg) (i : Nat) : String := (g.blocks[i]?.map (·.name)).getD ""

def names (g : Cfg) : List String := g.blocks.toList.map (·.name)

def block? (g : Cfg) (i : Nat) : Option Block := g.blocks[i]?.map (·.block)

def indexOf? (g : Cfg) (name : String) : Option Nat := indexOfName g.blocks name

def successors (g : Cfg) (i : Nat) : List Nat := g.succs[i]?.getD []

def predecessors (g : Cfg) (i : Nat) : List Nat := g.preds[i]?.getD []

def entry? (g : Cfg) : Option Nat := if g.size = 0 then none else some 0

def exit? (g : Cfg) : Option Nat := if g.size = 0 then none else some (g.size - 1)

/-- Where values come from in a direction. -/
def flowIn (g : Cfg) (i : Nat) : Direction → List Nat
  | .forward => g.predecessors i
  | .backward => g.successors i

/-- Where values go in a direction. -/
def flowOut (g : Cfg) (i : Nat) : Direction → List Nat
  | .forward => g.successors i
  | .backward => g.predecessors i

/-- Where a direction starts: the first block forwards, the last backwards. -/
def start? (g : Cfg) : Direction → Option Nat
  | .forward => g.entry?
  | .backward => g.exit?

def edges (g : Cfg) : List (Nat × Nat) :=
  (List.range g.size).flatMap fun i => (g.successors i).map (i, ·)

end Cfg
end BrilFlow

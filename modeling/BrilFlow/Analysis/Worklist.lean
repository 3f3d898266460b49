/-! Worklists: a queue of block indices taken first in first out, last in first out, or at a drawn
position whose place the last entry takes. With deduplication a waiting block is not added again. -/
namespace BrilFlow

inductive WorkOrder where
  | fifo
  | lifo
  | shuffled (seed : UInt64)
deriving DecidableEq, Repr, Inhabited

/-- Where a shuffled worklist draws its positions: seeded by `seed`, after `k` draws, the next
draw from a queue of `len` entries is `pick seed k len`, a position below `len`. -/
structure Draws where
  pick : UInt64 → Nat → Nat → Nat
  pick_lt : ∀ seed k len, 0 < len → pick seed k len < len

def Draws.first : Draws := ⟨fun _ _ _ => 0, fun _ _ _ pos => pos⟩

instance : Inhabited Draws := ⟨Draws.first⟩

/-- How the engine keeps its worklist. The draws of a shuffled order are a parameter of the
configuration: which generator the seed starts is left open, and what is proved of a run holds
for every one. -/
structure EngineConfig where
  order : WorkOrder := .fifo
  dedup : Bool := false
  draws : Draws := .first
deriving Inhabited

structure Worklist where
  queue : List Nat
  waiting : Array Bool
  config : EngineConfig

namespace Worklist

def empty (size : Nat) (config : EngineConfig) : Worklist :=
  { queue := [], waiting := Array.replicate size false, config }

/-- Adds a block at the back, unless deduplicating and it is already waiting. -/
def push (w : Worklist) (n : Nat) : Worklist :=
  if w.config.dedup && (w.waiting[n]?.getD false) then w
  else { w with waiting := w.waiting.setIfInBounds n true, queue := w.queue ++ [n] }

/-- Removes the entry at position `i`, putting the last entry in its place. -/
def swapRemove (q : List Nat) (i : Nat) : List Nat :=
  if i + 1 = q.length then q.dropLast
  else match q.getLast? with
    | some last => (q.dropLast).set i last
    | none => q

/-- The position the `k`-th take of a run draws: below the queue's length when the order is
shuffled and the queue is not empty. -/
def draw (w : Worklist) (k : Nat) : Nat :=
  match w.config.order with
  | .shuffled seed => w.config.draws.pick seed k w.queue.length
  | _ => 0

/-- Takes the next block by the order; a shuffled worklist takes the entry at position `drawn`,
counted around the queue should it lie past the end. -/
def pop? (w : Worklist) (drawn : Nat) : Option (Nat × Worklist) :=
  let take := fun (n : Nat) (queue : List Nat) =>
    some (n, { w with queue, waiting := w.waiting.setIfInBounds n false })
  match w.config.order, w.queue with
  | _, [] => none
  | .fifo, n :: rest => take n rest
  | .lifo, q => match q.getLast? with
    | some n => take n q.dropLast
    | none => none
  | .shuffled _, q =>
    let i := drawn % q.length
    match q[i]? with
    | some n => take n (swapRemove q i)
    | none => none

end Worklist
end BrilFlow

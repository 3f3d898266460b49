import BrilFlow.Program.Basic

/-! Basic blocks: an optional label and operations. A stream is cut left to right: a label opens a
new block, and `jmp`, `br`, `ret` or `call` closes the open one. -/
namespace BrilFlow

structure Block where
  label : Option String := none
  ops : List Operation := []
deriving DecidableEq, Repr, Inhabited

namespace Block

/-- The last operation, when it ends blocks (`jmp`, `br`, `ret`, `call`). -/
def terminator? (b : Block) : Option Operation := b.ops.getLast?.filter Operation.isTerminator

/-- The last operation, when it decides successors (`jmp`, `br`, `ret`). -/
def control? (b : Block) : Option Operation := b.ops.getLast?.filter Operation.isControl

def insertName (x : String) : List String → List String
  | [] => [x]
  | y :: ys => if x < y then x :: y :: ys else if x = y then y :: ys else y :: insertName x ys

def defs (b : Block) : List String :=
  b.ops.foldl (fun acc o => match o.dest with | some d => insertName d acc | none => acc) []

/-- The variables the block reads before writing them, sorted. -/
def upwardExposed (b : Block) : List String :=
  let step := fun (acc : List String × List String) (o : Operation) =>
    let used := o.args.foldl (fun u a => if acc.1.contains a then u else insertName a u) acc.2
    let defined := match o.dest with | some d => insertName d acc.1 | none => acc.1
    (defined, used)
  (b.ops.foldl step ([], [])).2

end Block

/-- Splits a stream into blocks, given the block still open. -/
def partitionFrom : Option Block → List Instr → List Block
  | open_, [] => open_.toList
  | none, .label l :: rest => partitionFrom (some { label := some l }) rest
  | some b, .label l :: rest => b :: partitionFrom (some { label := some l }) rest
  | open_, .op o :: rest =>
    let b := open_.getD {}
    let b := { b with ops := b.ops ++ [o] }
    if o.isTerminator then b :: partitionFrom none rest else partitionFrom (some b) rest

def partition (instrs : List Instr) : List Block := partitionFrom none instrs

end BrilFlow

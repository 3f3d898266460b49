import BrilFlow.Cfg.Block

/-! Naming blocks by their label, or `b<i>` when unlabelled, failing on a repeated label or a
made-up name that is taken; and completing every block with a jump to the next or a return. -/
namespace BrilFlow

/-- A structural fault of one function. -/
inductive BlockError where
  | duplicateLabel (label : String)
  | namingConflict (name : String)
  | unknownLabel (block : String) (label : String)
deriving DecidableEq, Repr

namespace BlockError

def kind : BlockError → String
  | .duplicateLabel _ => "DuplicateLabel"
  | .namingConflict _ => "NamingConflict"
  | .unknownLabel .. => "UnknownLabel"

def message : BlockError → String
  | .duplicateLabel l => "Label `" ++ l ++ "` is defined more than once"
  | .namingConflict n => "Synthetic block name `" ++ n ++ "` collides with a label"
  | .unknownLabel b l => "Block `" ++ b ++ "` branches to unknown label `" ++ l ++ "`"

end BlockError

structure NamedBlock where
  name : String
  block : Block
deriving DecidableEq, Repr, Inhabited

/-- The first label that occurs a second time, given the labels seen so far. -/
def firstRepeated (seen : List String) : List String → Option String
  | [] => none
  | l :: rest => if seen.contains l then some l else firstRepeated (l :: seen) rest

/-- The made-up name of the block at an index. -/
def syntheticName (index : Nat) : String := "b" ++ index.repr

def nameBlocks (blocks : List Block) : Except BlockError (List NamedBlock) := do
  let labels := blocks.filterMap (·.label)
  if let some l := firstRepeated [] labels then throw (.duplicateLabel l)
  blocks.zipIdx.mapM fun (b, i) =>
    match b.label with
    | some l => pure { name := l, block := b }
    | none =>
      if labels.contains (syntheticName i) then throw (.namingConflict (syntheticName i))
      else pure { name := syntheticName i, block := b }

/-- Ends every block in `jmp`, `br` or `ret`: the next block's name follows each block. -/
def completeFrom : List NamedBlock → List NamedBlock
  | [] => []
  | [nb] =>
    if nb.block.control?.isSome then [nb]
    else [{ nb with block := { nb.block with ops := nb.block.ops ++ [Operation.ret] } }]
  | nb :: next :: rest =>
    let nb' :=
      if nb.block.control?.isSome then nb
      else { nb with block := { nb.block with ops := nb.block.ops ++ [Operation.jump next.name] } }
    nb' :: completeFrom (next :: rest)

def addTerminators (blocks : List NamedBlock) : List NamedBlock := completeFrom blocks

end BrilFlow

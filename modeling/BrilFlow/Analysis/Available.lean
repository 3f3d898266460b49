import BrilFlow.Analysis.Problem

/-! Available expressions: forwards, the expressions computed on every path and not overwritten
since. A block generates what it computes with operands it does not write later and kills what
mentions a variable it writes; merging intersects, starting from the function's universe. -/
namespace BrilFlow

structure Expr where
  op : String
  operands : List String
deriving DecidableEq, Repr, Inhabited

/-- Lexicographic order of string lists, a prefix first. -/
def compareStrings : List String → List String → Ordering
  | [], [] => .eq
  | [], _ :: _ => .lt
  | _ :: _, [] => .gt
  | a :: as, b :: bs => (compare a b).then (compareStrings as bs)

instance : Ord Expr where
  compare a b := (compare a.op b.op).then (compareStrings a.operands b.operands)

/-- The text of an expression: `op(a,b)`. -/
def Expr.render (e : Expr) : String := e.op ++ "(" ++ ",".intercalate e.operands ++ ")"

def Expr.mentions (e : Expr) (v : String) : Bool := e.operands.contains v

def Expr.ofOperation? (o : Operation) : Option Expr :=
  if o.dest.isNone || o.args.isEmpty || o.isConst || o.op == "call" then none
  else some ⟨o.op, if o.isCommutative then o.args.mergeSort (fun a b => decide (a ≤ b)) else o.args⟩

/-- Expressions a block generates, scanning from its end. -/
def generatedExprs (b : Block) : List Expr :=
  (b.ops.reverse.foldl (fun (acc : List Expr × List String) o =>
    let written := match o.dest with | some d => d :: acc.2 | none => acc.2
    match Expr.ofOperation? o with
    | some e => if e.operands.any written.contains then (acc.1, written) else (Sorted.insert e acc.1, written)
    | none => (acc.1, written)) ([], [])).1

def killedExprs (all : List Expr) (b : Block) : List Expr :=
  let defs := b.defs
  if defs.isEmpty then [] else all.filter fun e => defs.any e.mentions

def exprUniverse (g : Cfg) : List Expr :=
  Sorted.ofList (g.blocks.toList.flatMap fun nb => nb.block.ops.filterMap Expr.ofOperation?)

def availableGen (g : Cfg) : Array (List Expr) := g.blocks.map fun nb => generatedExprs nb.block

def availableKill (g : Cfg) : Array (List Expr) :=
  let everything := exprUniverse g
  g.blocks.map fun nb => killedExprs everything nb.block

def availableProblem (g : Cfg) : Problem (List Expr) :=
  let everything := exprUniverse g
  let gen := availableGen g
  let kill := availableKill g
  { direction := .forward
    init := everything
    empty := []
    merge := fun vs => vs.foldl Sorted.inter everything
    transfer := fun i input => Sorted.union (Sorted.diff input (kill[i]?.getD [])) (gen[i]?.getD [])
    view := fun v => FactValue.ofTexts (v.map Expr.render)
    height := g.weight + 1 }

end BrilFlow

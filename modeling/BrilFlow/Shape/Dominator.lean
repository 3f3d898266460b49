import BrilFlow.Shape.Walk
import BrilFlow.Analysis.Sorted

/-! Dominator sets by rounds in reverse postorder until nothing changes, each set the block plus the
intersection of its predecessors' sets; the immediate dominator is the strict dominator with the
largest set. -/
namespace BrilFlow
namespace Cfg

/-- One round: recomputes the set of each block of `order`, in order, from its predecessors. -/
def dominatorRound (g : Cfg) (order : List Nat) (doms : Array (Option (List Nat))) :
    Array (Option (List Nat)) :=
  order.foldl (fun doms b =>
    let known := (g.predecessors b).filterMap fun p => doms[p]?.getD none
    let meet := match known with
      | [] => []
      | d :: ds => ds.foldl Sorted.inter d
    doms.setIfInBounds b (some (Sorted.insert b meet))) doms

def settleDominators (g : Cfg) (order : List Nat) :
    Nat → Array (Option (List Nat)) → Array (Option (List Nat))
  | 0, doms => doms
  | fuel + 1, doms =>
    let next := g.dominatorRound order doms
    if next == doms then doms else g.settleDominators order fuel next

/-- The dominator set of every block, sorted; `none` for blocks the walk does not reach. -/
def dominatorSets (g : Cfg) : Array (Option (List Nat)) :=
  match g.reversePostorder with
  | [] => Array.replicate g.size none
  | entry :: rest =>
    let all := Sorted.ofList (entry :: rest)
    let start := rest.foldl (fun d b => d.setIfInBounds b (some all))
      (Array.replicate g.size none)
    g.settleDominators rest (g.size * g.size + 1) (start.setIfInBounds entry (some [entry]))

def dominatorsOf? (g : Cfg) (b : Nat) : Option (List Nat) := g.dominatorSets[b]?.getD none

/-- Whether `a` dominates `b`; nothing dominates an unreached block. -/
def dominates (g : Cfg) (a b : Nat) : Bool :=
  match g.dominatorsOf? b with
  | some ds => ds.contains a
  | none => false

/-- The strict dominator with the largest set among `candidates` (the last one on a tie). -/
def nearestDominator (sets : Array (Option (List Nat))) (candidates : List Nat) : Option Nat :=
  let size (d : Nat) := ((sets[d]?.getD none).getD []).length
  candidates.foldl (fun best d =>
    match best with
    | none => some d
    | some c => if size c ≤ size d then some d else best) none

def dominatorTable (g : Cfg) : List (Nat × Option Nat × List Nat) :=
  let sets := g.dominatorSets
  let entry := g.reversePostorder.head?
  (List.range g.size).filterMap fun b =>
    (sets[b]?.getD none).map fun ds =>
      (b, (if entry == some b then none else nearestDominator sets (ds.filter (· ≠ b))), ds)

/-- The immediate dominator of a block, read from the table; `none` for the entry and for blocks
the walk does not reach. -/
def immediateDominator? (g : Cfg) (b : Nat) : Option Nat :=
  (g.dominatorTable.find? (·.1 == b)).bind (·.2.1)

/-- Whether every retreating edge points at a block that dominates its source. -/
def isReducible (g : Cfg) : Bool :=
  g.backEdges.all fun (source, target) => g.dominates target source

end Cfg
end BrilFlow

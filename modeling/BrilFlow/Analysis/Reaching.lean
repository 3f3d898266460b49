import BrilFlow.Analysis.Problem

/-! Reaching definitions: forwards, the definition sites `var@block.index` whose value may still
be current. A block generates its last write of each variable it writes and kills every other site
of those variables in the function. -/
namespace BrilFlow

structure DefSite where
  var : String
  block : String
  index : Nat
deriving DecidableEq, Repr, Inhabited

instance : Ord DefSite where
  compare a b := (compare a.var b.var).then ((compare a.block b.block).then (compare a.index b.index))

/-- The text of a site: `var@block.index`. -/
def DefSite.render (d : DefSite) : String := d.var ++ "@" ++ d.block ++ "." ++ d.index.repr

def sitesOf (nb : NamedBlock) : List DefSite :=
  nb.block.ops.zipIdx.filterMap fun (o, i) => o.dest.map fun v => ⟨v, nb.name, i⟩

/-- One operation of the scan from a block's end, with the variables seen so far: the first write
of a variable the scan meets is the block's last. -/
def lastWriteStep (name : String) (acc : List DefSite × List String) (oi : Operation × Nat) :
    List DefSite × List String :=
  match oi.1.dest with
  | some v => if acc.2.contains v then acc else (Sorted.insert ⟨v, name, oi.2⟩ acc.1, v :: acc.2)
  | none => acc

/-- The last write of each variable a block writes, scanning from its end. -/
def lastSites (nb : NamedBlock) : List DefSite :=
  (nb.block.ops.zipIdx.reverse.foldl (lastWriteStep nb.name) ([], [])).1

/-- The sites a block kills: every other site of a variable it generates. -/
def killedSites (all : List DefSite) (gen : List DefSite) : List DefSite :=
  Sorted.ofList (all.filter fun d => gen.any fun s => s.var == d.var && !(compare s d == .eq))

def reachingGen (g : Cfg) : Array (List DefSite) := g.blocks.map lastSites

def reachingKill (g : Cfg) : Array (List DefSite) :=
  let all := g.blocks.toList.flatMap sitesOf
  (reachingGen g).map (killedSites all)

def reachingProblem (g : Cfg) : Problem (List DefSite) :=
  let gen := reachingGen g
  let kill := reachingKill g
  { direction := .forward
    init := []
    empty := []
    merge := Sorted.unionAll
    transfer := fun i input => Sorted.union (Sorted.diff input (kill[i]?.getD [])) (gen[i]?.getD [])
    view := fun v => FactValue.ofTexts (v.map DefSite.render)
    height := g.weight + 1 }

end BrilFlow

import BrilFlow.Proofs.DepthFirstOrder
import BrilFlow.Proofs.Dominators

/-! Reducibility as a property of the graph: removing every edge whose target dominates its source
leaves no cycle exactly when `isReducible` holds. -/
namespace BrilFlow

open scoped List

namespace Cfg

/-- An edge out of a block the entry reaches whose target does not dominate its source: the edges
that stay once the back edges of dominance are removed. -/
def ForwardEdge (g : Cfg) (u v : Nat) : Prop :=
  g.Reaches .forward 0 u ∧ v ∈ g.successors u ∧ ¬g.Dominates v u

/-- The edges that stay form no cycle. -/
def ForwardAcyclic (g : Cfg) : Prop := ∀ u, ¬Relation.TransGen g.ForwardEdge u u

end Cfg

namespace Walk

/-- The walk stands at `b`: some path from the entry to `b` passes active blocks only, and from
every active block the edges that stay lead to `b`. -/
structure Rooted (g : Cfg) (w : Walk) (b : Nat) : Prop where
  path : ∃ ns, g.Path .forward 0 ns b ∧ ∀ a ∈ ns, w.state[a]? = some .active
  chain : ∀ a, w.state[a]? = some .active → Relation.ReflTransGen g.ForwardEdge a b

/-- From the target of every retreating edge recorded, the edges that stay lead back to its
source. -/
def Closes (g : Cfg) (w : Walk) : Prop :=
  ∀ x y, (x, y) ∈ w.retreating → Relation.ReflTransGen g.ForwardEdge y x

def ClosesWithin (g : Cfg) (fuel : Nat) : Prop :=
  ∀ b w, Sound g w → w.state[b]? = some .unseen → (unseenSet g w).card ≤ fuel → Rooted g w b →
    Closes g w → Closes g (visit g fuel b w)

variable {g : Cfg} {b s fuel : Nat} {w w' : Walk}

theorem forwardEdge_of_unseen {ns : List Nat} (path : g.Path .forward 0 ns b)
    (active : ∀ a ∈ ns ++ [b], w'.state[a]? = some .active) (edge : s ∈ g.successors b)
    (unseen : w'.state[s]? = some .unseen) : g.ForwardEdge b s := by
  refine ⟨path.reaches, edge, fun dom => ?_⟩
  have := active s (dom.2 ns path)
  simp [unseen] at this

theorem takeSuccessor_closes (hg : g.WellFormed) (closes : ClosesWithin g fuel) (rooted : Rooted g w b)
    (active : ∀ k, w'.state[k]? = some .active ↔ k = b ∨ w.state[k]? = some .active)
    (edge : s ∈ g.successors b) (sound : Sound g w') (few : (unseenSet g w').card ≤ fuel)
    (closed : Closes g w') : Closes g (takeSuccessor g fuel b w' s) := by
  -- the edges that stay lead from every active block to `b`
  have toB : ∀ a, w'.state[a]? = some .active → Relation.ReflTransGen g.ForwardEdge a b := by
    intro a h
    rcases (active a).mp h with rfl | h
    · exact .refl
    · exact rooted.chain a h
  unfold takeSuccessor
  split
  · next unseen =>
    obtain ⟨ns, path, onPath⟩ := rooted.path
    have activePath : ∀ a ∈ ns ++ [b], w'.state[a]? = some .active := by
      intro a ha
      rcases List.mem_append.mp ha with h | h
      · exact (active a).mpr (.inr (onPath a h))
      · exact (active a).mpr (.inl (List.mem_singleton.mp h))
    have tree := forwardEdge_of_unseen path activePath edge unseen
    refine closes s w' sound unseen few ⟨⟨ns ++ [b], .step path edge (hg.succ_lt edge), activePath⟩,
      fun a h => (toB a h).tail tree⟩ closed
  · next isActive =>
    intro x y mem
    rcases List.mem_cons.mp mem with same | old
    · obtain ⟨rfl, rfl⟩ := Prod.mk.inj same
      exact toB y isActive
    · exact closed x y old
  · exact closed

theorem foldl_takeSuccessor_closes (hg : g.WellFormed) (visits : VisitsWithin g fuel)
    (closes : ClosesWithin g fuel) (rooted : Rooted g w b) (ss : List Nat)
    (edges : ∀ s ∈ ss, s ∈ g.successors b)
    (active : ∀ k, w'.state[k]? = some .active ↔ k = b ∨ w.state[k]? = some .active)
    (sound : Sound g w') (few : (unseenSet g w').card ≤ fuel) (closed : Closes g w') :
    Closes g (ss.foldl (takeSuccessor g fuel b) w') := by
  induction ss generalizing w' with
  | nil => exact closed
  | cons s ss ih =>
    have edge := edges s List.mem_cons_self
    obtain ⟨sound₁, advances₁, -⟩ := takeSuccessor_spec hg visits edge sound few
    have few₁ := (Finset.card_le_card advances₁.unseenSet_subset).trans few
    exact ih (fun s' h => edges s' (List.mem_cons_of_mem _ h))
      (fun k => (advances₁.active_iff k).trans (active k)) sound₁ few₁
      (takeSuccessor_closes hg closes rooted active edge sound few closed)

theorem closesWithin (hg : g.WellFormed) (fuel : Nat) : ClosesWithin g fuel := by
  induction fuel with
  | zero =>
    intro b w sound unseen few
    have := card_unseenSet_enter sound unseen
    omega
  | succ fuel ih =>
    intro b w sound unseen few rooted closed
    rw [visit_succ]
    have fewer := card_unseenSet_enter sound unseen
    have entered : ∀ k, (enterBlock b w).state[k]? = some .active ↔
        k = b ∨ w.state[k]? = some .active := fun k => by
      rw [enterBlock_state (lt_size_of_getElem? unseen)]
      by_cases same : b = k
      · simp [same]
      · simp [same, Ne.symm same]
    -- finishing `b` records no edge
    exact foldl_takeSuccessor_closes hg (visitsWithin hg fuel) ih rooted (g.successors b)
      (fun _ h => h) entered (sound_enter sound unseen) (by omega) closed

end Walk

namespace Cfg

open Walk

variable {g g' : Cfg} {u v : Nat}

/-- Every retreating edge of the walk from the entry closes a cycle of edges that stay. -/
theorem closes_depthFirst (hg : g.WellFormed) (nonempty : 0 < g.size) : Closes g g.depthFirst := by
  have noneActive : ∀ a, (fresh g).state[a]? ≠ some Visit.active := fun a => by
    rw [fresh_state]
    split <;> simp
  have rooted : Rooted g (fresh g) 0 :=
    ⟨⟨[], .here nonempty, by simp⟩, fun a h => absurd h (noneActive a)⟩
  rw [depthFirst_eq hg nonempty]
  exact closesWithin hg g.size 0 _ (sound_start g) (fresh_entry nonempty) (card_unseenSet_fresh g)
    rooted (fun _ _ h => by simp [fresh] at h)

theorem idxOf_lt_of_pair_sublist {l : List Nat} (nodup : l.Nodup) (h : [u, v] <+ l) :
    l.idxOf u < l.idxOf v := by
  induction l with
  | nil => simp at h
  | cons x l ih =>
    obtain ⟨fresh, nodup'⟩ := List.nodup_cons.mp nodup
    rcases List.sublist_cons_iff.mp h with tail | ⟨r, same, rest⟩
    · -- both lie in the tail, so neither is the head
      have hu : u ≠ x := fun e => fresh (e ▸ tail.subset (by simp))
      have hv : v ≠ x := fun e => fresh (e ▸ tail.subset (by simp))
      rw [List.idxOf_cons_ne l (Ne.symm hu), List.idxOf_cons_ne l (Ne.symm hv)]
      exact Nat.succ_lt_succ (ih nodup' tail)
    · obtain ⟨rfl, rfl⟩ := List.cons_eq_cons.mp same
      have hv : v ≠ u := fun e => fresh (e ▸ rest.subset (by simp))
      rw [List.idxOf_cons_self, List.idxOf_cons_ne l (Ne.symm hv)]
      exact Nat.succ_pos _

theorem forwardAcyclic_of_isReducible (hg : g.WellFormed) (reducible : g.isReducible = true) :
    g.ForwardAcyclic := by
  have forward : ∀ a c, g.ForwardEdge a c →
      g.reversePostorder.idxOf a < g.reversePostorder.idxOf c := by
    rintro a c ⟨reach, edge, notDom⟩
    have notBack : (a, c) ∉ g.backEdges := fun back => by
      apply notDom
      rw [← dominates_iff hg]
      simpa [isReducible] using List.all_eq_true.mp reducible (a, c) back
    exact idxOf_lt_of_pair_sublist (nodup_reversePostorder hg)
      (before_of_not_backEdge hg reach edge notBack)
  intro u cycle
  have rises : ∀ a c, Relation.TransGen g.ForwardEdge a c →
      g.reversePostorder.idxOf a < g.reversePostorder.idxOf c := by
    intro a c path
    induction path with
    | single step => exact forward _ _ step
    | tail _ step ih => exact ih.trans (forward _ _ step)
  exact lt_irrefl _ (rises u u cycle)

theorem isReducible_of_forwardAcyclic (hg : g.WellFormed) (acyclic : g.ForwardAcyclic) :
    g.isReducible = true := by
  refine List.all_eq_true.mpr fun ⟨u, v⟩ back => ?_
  show g.dominates v u = true
  rw [dominates_iff hg]
  by_contra notDom
  obtain ⟨reach, edge, -⟩ := backEdge_spec hg back
  have closes := closes_depthFirst hg reach.start_lt u v (List.mem_reverse.mp back)
  exact acyclic u (.head' ⟨reach, edge, notDom⟩ closes)

theorem isReducible_iff (hg : g.WellFormed) : g.isReducible = true ↔ g.ForwardAcyclic :=
  ⟨forwardAcyclic_of_isReducible hg, isReducible_of_forwardAcyclic hg⟩

section SameSuccessors

variable (size : g'.size = g.size) (succ : ∀ u v, v ∈ g'.successors u ↔ v ∈ g.successors u)
include size succ

theorem reaches_of_same_successors {s n : Nat} (reach : g'.Reaches .forward s n) :
    g.Reaches .forward s n := by
  induction reach with
  | start lt => exact .start (size ▸ lt)
  | edge _ edge lt ih => exact .edge ih ((succ _ _).mp edge) (size ▸ lt)

theorem path_of_same_successors {s n : Nat} {ns : List Nat} (path : g'.Path .forward s ns n) :
    g.Path .forward s ns n := by
  induction path with
  | here lt => exact .here (size ▸ lt)
  | step _ edge lt ih => exact .step ih ((succ _ _).mp edge) (size ▸ lt)

end SameSuccessors

theorem forwardEdge_of_same_successors (size : g'.size = g.size)
    (succ : ∀ u v, v ∈ g'.successors u ↔ v ∈ g.successors u) (h : g'.ForwardEdge u v) :
    g.ForwardEdge u v := by
  have size' : g.size = g'.size := size.symm
  have succ' : ∀ u v, v ∈ g.successors u ↔ v ∈ g'.successors u := fun u v => (succ u v).symm
  obtain ⟨reach, edge, notDom⟩ := h
  refine ⟨reaches_of_same_successors size succ reach, (succ u v).mp edge, fun dom => notDom ?_⟩
  exact ⟨reaches_of_same_successors size' succ' dom.1,
    fun ns path => dom.2 ns (path_of_same_successors size succ path)⟩

end Cfg

/-- A graph is reducible exactly when the graph reached from the entry, with every edge into a
dominator of its source removed, has no cycle; so whether it is depends on the successors of each
block and not on the order they are listed in. -/
theorem reducible_iff_forward_acyclic (blocks : List NamedBlock) (g : Cfg)
    (h : Cfg.ofBlocks blocks = .ok g) :
    (g.isReducible = true ↔ g.ForwardAcyclic) ∧
      ∀ blocks' g', Cfg.ofBlocks blocks' = .ok g' → g'.size = g.size →
        (∀ u v, v ∈ g'.successors u ↔ v ∈ g.successors u) → g'.isReducible = g.isReducible := by
  have hg := Cfg.ofBlocks_wellFormed h
  refine ⟨Cfg.isReducible_iff hg, fun blocks' g' h' size succ => ?_⟩
  have hg' := Cfg.ofBlocks_wellFormed h'
  have same : g'.ForwardAcyclic ↔ g.ForwardAcyclic :=
    ⟨fun acyclic u cycle => acyclic u (Relation.TransGen.mono (fun _ _ =>
        Cfg.forwardEdge_of_same_successors size.symm fun u v => (succ u v).symm) u u cycle),
      fun acyclic u cycle => acyclic u (Relation.TransGen.mono (fun _ _ =>
        Cfg.forwardEdge_of_same_successors size succ) u u cycle)⟩
  rw [Bool.eq_iff_iff, Cfg.isReducible_iff hg', Cfg.isReducible_iff hg, same]

/-- Two blocks that jump into each other, both entered from the entry: the smallest irreducible
graph with an exit. -/
def crossedGraph : Cfg :=
  { blocks := #[
      { name := "entry", block := { label := some "entry", ops := [Operation.branch "c" "x" "y"] } },
      { name := "x", block := { label := some "x", ops := [Operation.branch "c" "y" "out"] } },
      { name := "y", block := { label := some "y", ops := [Operation.jump "x"] } },
      { name := "out", block := { label := some "out", ops := [.ret] } }]
    succs := #[[1, 2], [2, 3], [1], []]
    preds := #[[], [0, 2], [0, 1], [1]] }

theorem reducible_iff_forward_acyclic_crossed :
    Cfg.ofBlocks crossedGraph.blocks.toList = .ok crossedGraph ∧
      (crossedGraph.isReducible = true ↔ crossedGraph.ForwardAcyclic) ∧
      ∀ blocks' g', Cfg.ofBlocks blocks' = .ok g' → g'.size = crossedGraph.size →
        (∀ u v, v ∈ g'.successors u ↔ v ∈ crossedGraph.successors u) →
          g'.isReducible = crossedGraph.isReducible :=
  have built : Cfg.ofBlocks crossedGraph.blocks.toList = .ok crossedGraph := by decide +kernel
  ⟨built, reducible_iff_forward_acyclic _ _ built⟩

end BrilFlow

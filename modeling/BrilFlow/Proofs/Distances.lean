import Mathlib.Data.Finset.Card
import BrilFlow.Proofs.Paths
import BrilFlow.Shape.Distance

/-! Breadth-first distances are the lengths of shortest paths. The queue agrees with a search
that grows one layer at a time: while a layer is taken from its front, the queue holds the rest of
the layer and then the part of the next one marked so far. Each layer marks exactly the blocks one
edge farther than the last. -/
namespace BrilFlow

namespace Cfg

/-- `d` is the fewest successor edges on a path from the entry to `n`. -/
def Distance (g : Cfg) (n d : Nat) : Prop :=
  (∃ ns, g.Path .forward 0 ns n ∧ ns.length = d) ∧ ∀ ns, g.Path .forward 0 ns n → d ≤ ns.length

variable {g : Cfg} {m n d d' e j : Nat}

theorem Distance.unique (h : g.Distance n d) (h' : g.Distance n d') : d = d' := by
  obtain ⟨⟨ns, path, rfl⟩, least⟩ := h
  obtain ⟨⟨ns', path', rfl⟩, least'⟩ := h'
  exact le_antisymm (least ns' path') (least' ns path)

theorem Distance.reaches (h : g.Distance n d) : g.Reaches .forward 0 n := by
  obtain ⟨⟨ns, path, -⟩, -⟩ := h
  exact path.reaches

theorem exists_distance (reach : g.Reaches .forward 0 n) : ∃ d, g.Distance n d := by
  classical
  have some : ∃ d ns, g.Path .forward 0 ns n ∧ ns.length = d := by
    obtain ⟨ns, path⟩ := reach.exists_path
    exact ⟨_, ns, path, rfl⟩
  exact ⟨Nat.find some, Nat.find_spec some, fun ns path => Nat.find_min' some ⟨ns, path, rfl⟩⟩

theorem distance_zero_iff : g.Distance n 0 ↔ n = 0 ∧ 0 < g.size := by
  constructor
  · rintro ⟨⟨ns, path, length⟩, -⟩
    cases path with
    | here lt => exact ⟨rfl, lt⟩
    | step _ _ _ => simp at length
  · rintro ⟨rfl, lt⟩
    exact ⟨⟨[], .here lt, rfl⟩, fun _ _ => Nat.zero_le _⟩

theorem Distance.exists_pred (h : g.Distance n (d + 1)) :
    ∃ m, g.Distance m d ∧ n ∈ g.successors m := by
  obtain ⟨⟨ns, path, length⟩, least⟩ := h
  cases path with
  | here _ => simp at length
  | @step ns m _ path edge lt =>
    refine ⟨m, ⟨⟨ns, path, by simpa using length⟩, fun ns' path' => ?_⟩, edge⟩
    have := least (ns' ++ [m]) (.step path' edge lt)
    simp only [List.length_append, List.length_singleton] at this
    omega

theorem Distance.succ (h : g.Distance m d) (edge : n ∈ g.successors m) (lt : n < g.size)
    (far : ∀ j ≤ d, ¬g.Distance n j) : g.Distance n (d + 1) := by
  obtain ⟨⟨ns, path, rfl⟩, -⟩ := h
  obtain ⟨j, hj⟩ := exists_distance (Path.step path edge lt).reaches
  have le : j ≤ ns.length + 1 := by simpa using hj.2 _ (.step path edge lt)
  obtain rfl : j = ns.length + 1 := by
    by_contra ne
    exact far j (by omega) hj
  exact hj

theorem Distance.exists_of_le (h : g.Distance n d) (le : e ≤ d) : ∃ m, g.Distance m e := by
  induction d generalizing n with
  | zero => exact ⟨n, by rwa [Nat.le_zero.mp le]⟩
  | succ d ih =>
    rcases Nat.lt_or_ge e (d + 1) with below | atLeast
    · obtain ⟨m, hm, -⟩ := h.exists_pred
      exact ih hm (by omega)
    · exact ⟨n, by rwa [show e = d + 1 by omega]⟩

/-- Distances `0, …, d` are taken by distinct blocks, so `d` is less than the block count. -/
theorem Distance.value_lt_size (h : g.Distance n d) : d < g.size := by
  classical
  have every : ∀ e, ∃ m, e ≤ d → g.Distance m e := fun e => by
    by_cases le : e ≤ d
    · obtain ⟨m, hm⟩ := h.exists_of_le le
      exact ⟨m, fun _ => hm⟩
    · exact ⟨0, fun le' => absurd le' le⟩
  choose f hf using every
  have card := Finset.card_le_card_of_injOn f
    (s := Finset.range (d + 1)) (t := Finset.range g.size)
    (fun e he => by
      simp only [Finset.coe_range, Set.mem_Iio] at he ⊢
      exact (hf e (by omega)).reaches.lt_size)
    (fun a ha b hb same => by
      simp only [Finset.coe_range, Set.mem_Iio] at ha hb
      exact (hf a (by omega)).unique (same ▸ hf b (by omega)))
  simpa using card

/-- The layered search: marks the unmarked successors of `frontier` with distance `d`, returning
them in visit order. -/
def nextLayer (g : Cfg) (d : Nat) (frontier : List Nat) (dist : Array (Option Nat)) :
    List Nat × Array (Option Nat) :=
  frontier.foldl (fun acc b =>
    (g.successors b).foldl (fun (acc : List Nat × Array (Option Nat)) s =>
      if acc.2[s]? == some none then (acc.1 ++ [s], acc.2.setIfInBounds s (some d))
      else acc) acc) ([], dist)

def growLayers (g : Cfg) : Nat → Nat → List Nat → Array (Option Nat) → Array (Option Nat)
  | 0, _, _, dist => dist
  | fuel + 1, d, frontier, dist =>
    let (layer, dist) := g.nextLayer d frontier dist
    if layer.isEmpty then dist else g.growLayers fuel (d + 1) layer dist

/-- The step of `nextLayer` and of `enqueueSuccessors` at a successor `s`: an unmarked `s` is
marked with `d` and joins the layer. -/
def markStep (d : Nat) (acc : List Nat × Array (Option Nat)) (s : Nat) :
    List Nat × Array (Option Nat) :=
  if acc.2[s]? == some none then (acc.1 ++ [s], acc.2.setIfInBounds s (some d)) else acc

theorem nextLayer_eq (g : Cfg) (d : Nat) (frontier : List Nat) (dist : Array (Option Nat)) :
    g.nextLayer d frontier dist = (frontier.flatMap g.successors).foldl (markStep d) ([], dist) := by
  rw [List.foldl_flatMap]
  rfl

structure Marks (d : Nat) (ss : List Nat) (acc acc' : List Nat × Array (Option Nat)) : Prop where
  size : acc'.2.size = acc.2.size
  get : ∀ k, acc'.2[k]? = if k ∈ ss ∧ acc.2[k]? = some none then some (some d) else acc.2[k]?
  mem : ∀ k, k ∈ acc'.1 ↔ k ∈ acc.1 ∨ k ∈ ss ∧ acc.2[k]? = some none

theorem marks_markStep (d : Nat) (acc : List Nat × Array (Option Nat)) (s : Nat) :
    Marks d [s] acc (markStep d acc s) := by
  unfold markStep
  split
  · next unmarked =>
    have unmarked : acc.2[s]? = some none := by simpa using unmarked
    have lt : s < acc.2.size := (Array.getElem?_eq_some_iff.mp unmarked).1
    refine ⟨by simp, fun k => ?_, fun k => ?_⟩
    · by_cases same : k = s
      · subst same
        rw [Array.getElem?_setIfInBounds_self_of_lt lt, if_pos ⟨List.mem_singleton_self k, unmarked⟩]
      · simp [Ne.symm same, same]
    · by_cases same : k = s
      · subst same
        simp [unmarked]
      · simp [same]
  · next marked =>
    refine ⟨rfl, fun k => ?_, fun k => ?_⟩
    · by_cases same : k = s
      · subst same
        simp_all
      · simp [same]
    · by_cases same : k = s
      · subst same
        simp_all
      · simp [same]

theorem Marks.append {ss ss' : List Nat} {acc acc' acc'' : List Nat × Array (Option Nat)}
    (first : Marks d ss acc acc') (second : Marks d ss' acc' acc'') :
    Marks d (ss ++ ss') acc acc'' where
  size := second.size.trans first.size
  get k := by
    rw [second.get, first.get]
    by_cases inFirst : k ∈ ss <;> by_cases unmarked : acc.2[k]? = some none <;> simp [*]
  mem k := by
    rw [second.mem, first.mem, first.get]
    by_cases inFirst : k ∈ ss <;> by_cases unmarked : acc.2[k]? = some none <;> simp [*]

theorem marks_foldl (d : Nat) (ss : List Nat) (acc : List Nat × Array (Option Nat)) :
    Marks d ss acc (ss.foldl (markStep d) acc) := by
  induction ss generalizing acc with
  | nil => exact ⟨rfl, fun k => by simp, fun k => by simp⟩
  | cons s ss ih =>
    exact (marks_markStep d acc s).append (ih (markStep d acc s))

/-- Before the layer at `e + 1`: the marks are the blocks at distance at most `e`, with their
distances, and the frontier is the blocks at distance `e`. -/
structure Layered (g : Cfg) (e : Nat) (frontier : List Nat) (dist : Array (Option Nat)) :
    Prop where
  size : dist.size = g.size
  marked : ∀ k j, dist[k]? = some (some j) ↔ j ≤ e ∧ g.Distance k j
  frontier : ∀ k, k ∈ frontier ↔ g.Distance k e

theorem Layered.next_iff {frontier : List Nat} {dist : Array (Option Nat)} {k : Nat}
    (layered : g.Layered e frontier dist) :
    (k ∈ frontier.flatMap g.successors ∧ dist[k]? = some none) ↔ g.Distance k (e + 1) := by
  constructor
  · rintro ⟨mem, unmarked⟩
    obtain ⟨m, inFrontier, edge⟩ := List.mem_flatMap.mp mem
    have lt : k < g.size := layered.size ▸ (Array.getElem?_eq_some_iff.mp unmarked).1
    refine ((layered.frontier m).mp inFrontier).succ edge lt fun j le dj => ?_
    have := (layered.marked k j).mpr ⟨le, dj⟩
    simp [unmarked] at this
  · intro h
    obtain ⟨m, hm, edge⟩ := h.exists_pred
    refine ⟨List.mem_flatMap.mpr ⟨m, (layered.frontier m).mpr hm, edge⟩, ?_⟩
    have lt : k < dist.size := layered.size ▸ h.reaches.lt_size
    -- a mark on `k` would be a distance at most `e`
    rcases hk : dist[k] with _ | j
    · rw [Array.getElem?_eq_getElem lt, hk]
    · have := ((layered.marked k j).mp (by rw [Array.getElem?_eq_getElem lt, hk])).2.unique h
      have := ((layered.marked k j).mp (by rw [Array.getElem?_eq_getElem lt, hk])).1
      omega

theorem Layered.next {frontier : List Nat} {dist : Array (Option Nat)}
    (layered : g.Layered e frontier dist) :
    g.Layered (e + 1) (g.nextLayer (e + 1) frontier dist).1 (g.nextLayer (e + 1) frontier dist).2 := by
  have marks := nextLayer_eq g (e + 1) frontier dist ▸
    marks_foldl (e + 1) (frontier.flatMap g.successors) ([], dist)
  have get : ∀ k, (g.nextLayer (e + 1) frontier dist).2[k]? =
      if k ∈ frontier.flatMap g.successors ∧ dist[k]? = some none then some (some (e + 1))
      else dist[k]? := marks.get
  refine ⟨marks.size.trans layered.size, fun k j => ?_, fun k => ?_⟩
  · rw [get]
    split
    · next layer =>
      have far := layered.next_iff.mp layer
      simp only [Option.some.injEq]
      exact ⟨fun same => same ▸ ⟨le_refl _, far⟩, fun ⟨_, dj⟩ => (dj.unique far).symm⟩
    · next notLayer =>
      have notFar := mt layered.next_iff.mpr notLayer
      rw [layered.marked]
      refine ⟨fun ⟨le, dj⟩ => ⟨by omega, dj⟩, fun ⟨le, dj⟩ => ⟨?_, dj⟩⟩
      by_contra beyond
      obtain rfl : j = e + 1 := by omega
      exact notFar dj
  · rw [marks.mem, layered.next_iff]
    simp

/-- From a layered state whose frontier is not empty, with fuel for as many layers as blocks are
left, the marks end as exactly the distances. -/
theorem growLayers_spec (fuel : Nat) : ∀ e frontier dist, g.Layered e frontier dist →
    frontier ≠ [] → g.size ≤ fuel + e →
    ∀ k j, (g.growLayers fuel (e + 1) frontier dist)[k]? = some (some j) ↔ g.Distance k j := by
  induction fuel with
  | zero =>
    intro e frontier dist layered nonempty budget
    obtain ⟨k, mem⟩ := List.exists_mem_of_ne_nil frontier nonempty
    have := ((layered.frontier k).mp mem).value_lt_size
    omega
  | succ fuel ih =>
    intro e frontier dist layered nonempty budget k j
    have next := layered.next
    rw [growLayers]
    rcases h : g.nextLayer (e + 1) frontier dist with ⟨layer, marks⟩
    rw [h] at next
    simp only
    split
    · next empty =>
      -- no block is at `e + 1`, so none is farther and every distance is marked
      rw [next.marked]
      refine ⟨fun ⟨_, dj⟩ => dj, fun dj => ⟨?_, dj⟩⟩
      by_contra far
      obtain ⟨m, hm⟩ := dj.exists_of_le (show e + 1 ≤ j by omega)
      have := (next.frontier m).mpr hm
      simp [List.isEmpty_iff.mp empty] at this
    · next nonemptyLayer =>
      exact ih (e + 1) layer marks next (fun nil => by simp [nil] at nonemptyLayer)
        (by omega) k j

theorem layered_start (nonempty : 0 < g.size) :
    g.Layered 0 [0] ((Array.replicate g.size none).setIfInBounds 0 (some 0)) := by
  refine ⟨by simp, fun k j => ?_, fun k => ?_⟩
  · constructor
    · intro h
      by_cases zero : k = 0
      · subst zero
        have : j = 0 := by simpa [Array.getElem?_setIfInBounds, nonempty] using h.symm
        subst this
        exact ⟨le_refl 0, distance_zero_iff.mpr ⟨rfl, nonempty⟩⟩
      · simp [Ne.symm zero, Array.getElem?_replicate] at h
    · rintro ⟨le, dj⟩
      obtain rfl : j = 0 := by omega
      obtain ⟨rfl, -⟩ := distance_zero_iff.mp dj
      simp [nonempty]
  · simp [distance_zero_iff, nonempty]

section Queue

def unmarked (dist : Array (Option Nat)) : Nat := dist.toList.count none

theorem markStep_potential (d : Nat) (acc : List Nat × Array (Option Nat)) (s : Nat) :
    (markStep d acc s).1.length + unmarked (markStep d acc s).2 = acc.1.length + unmarked acc.2 := by
  unfold markStep
  split
  · next h =>
    have at_s : acc.2.toList[s]? = some none := by simpa using h
    obtain ⟨lt, get⟩ := List.getElem?_eq_some_iff.mp at_s
    have counted : 0 < acc.2.toList.count none := List.count_pos_iff.mpr (get ▸ List.getElem_mem lt)
    simp only [unmarked, Array.toList_setIfInBounds, List.count_set lt, get, List.length_append,
      List.length_singleton]
    simp only [beq_self_eq_true, if_true, reduceCtorEq, beq_iff_eq, if_false]
    omega
  · rfl

theorem foldl_markStep_potential (d : Nat) (ss : List Nat) (acc : List Nat × Array (Option Nat)) :
    (ss.foldl (markStep d) acc).1.length + unmarked (ss.foldl (markStep d) acc).2 =
      acc.1.length + unmarked acc.2 := by
  induction ss generalizing acc with
  | nil => rfl
  | cons s ss ih => rw [List.foldl_cons, ih, markStep_potential]

theorem foldl_markStep_append (d : Nat) (pre : List Nat) (ss : List Nat) (L : List Nat)
    (dist : Array (Option Nat)) :
    ss.foldl (markStep d) (pre ++ L, dist) =
      (pre ++ (ss.foldl (markStep d) (L, dist)).1, (ss.foldl (markStep d) (L, dist)).2) := by
  induction ss generalizing L dist with
  | nil => rfl
  | cons s ss ih =>
    have step : markStep d (pre ++ L, dist) s = (pre ++ (markStep d (L, dist) s).1, (markStep d (L, dist) s).2) := by
      unfold markStep
      split <;> simp
    rw [List.foldl_cons, step, ih, List.foldl_cons]

/-- The queue invariant: while the blocks of the layer at distance `e` are taken from the front,
the queue holds the rest of that layer and then, in order, the part of the next layer marked so
far. -/
theorem searchQueue_layer (e fuel : Nat) : ∀ (frontier L : List Nat) (dist : Array (Option Nat)),
    (∀ b ∈ frontier, dist[b]? = some (some e)) →
    g.searchQueue (fuel + frontier.length) (frontier ++ L) dist =
      g.searchQueue fuel ((frontier.flatMap g.successors).foldl (markStep (e + 1)) (L, dist)).1
        ((frontier.flatMap g.successors).foldl (markStep (e + 1)) (L, dist)).2
  | [], L, dist, _ => rfl
  | b :: rest, L, dist, marked => by
    have pop : g.enqueueSuccessors b (rest ++ L) dist =
        (g.successors b).foldl (markStep (e + 1)) (rest ++ L, dist) := by
      simp only [enqueueSuccessors, marked b List.mem_cons_self]
      rfl
    -- the marks of the layer stay as they are, so its later blocks are still at `e`
    have kept : ∀ b' ∈ rest, ((g.successors b).foldl (markStep (e + 1)) (L, dist)).2[b']? =
        some (some e) := by
      intro b' mem
      rw [(marks_foldl (e + 1) _ (L, dist)).get, marked b' (List.mem_cons_of_mem b mem)]
      simp
    rw [List.length_cons, ← Nat.add_assoc, List.cons_append, searchQueue, pop, foldl_markStep_append,
      searchQueue_layer e fuel rest _ _ kept, List.flatMap_cons, List.foldl_append]

/-- The queue marks what growing the layers marks: from a layered state whose frontier is queued,
with a pop for every block queued or left to mark. -/
theorem searchQueue_eq_growLayers (fuel : Nat) : ∀ e frontier dist, g.Layered e frontier dist →
    frontier ≠ [] → g.size ≤ fuel + e → ∀ pops, frontier.length + unmarked dist ≤ pops →
    g.searchQueue pops frontier dist = g.growLayers fuel (e + 1) frontier dist := by
  induction fuel with
  | zero =>
    intro e frontier dist layered nonempty budget
    obtain ⟨k, mem⟩ := List.exists_mem_of_ne_nil frontier nonempty
    have := ((layered.frontier k).mp mem).value_lt_size
    omega
  | succ fuel ih =>
    intro e frontier dist layered nonempty budget pops enough
    obtain ⟨f, rfl⟩ : ∃ f, pops = f + frontier.length := ⟨pops - frontier.length, by omega⟩
    have marked : ∀ b ∈ frontier, dist[b]? = some (some e) := fun b mem =>
      (layered.marked b e).mpr ⟨le_refl e, (layered.frontier b).mp mem⟩
    have pass := searchQueue_layer (g := g) e f frontier [] dist marked
    rw [List.append_nil, ← nextLayer_eq] at pass
    have potential := foldl_markStep_potential (e + 1) (frontier.flatMap g.successors) ([], dist)
    rw [← nextLayer_eq] at potential
    have next := layered.next
    rw [pass, growLayers]
    rcases h : g.nextLayer (e + 1) frontier dist with ⟨layer, marks⟩
    rw [h] at next potential
    simp only at potential ⊢
    split
    · next empty =>
      rw [List.isEmpty_iff.mp empty]
      cases f <;> rfl
    · next nonemptyLayer =>
      exact ih (e + 1) layer marks next (fun nil => by simp [nil] at nonemptyLayer) (by omega) f
        (by simp only [List.length_nil] at potential; omega)

theorem unmarked_start (nonempty : 0 < g.size) :
    unmarked ((Array.replicate g.size none).setIfInBounds 0 (some 0)) = g.size - 1 := by
  simp [unmarked, List.count_set, nonempty]

theorem distancesFrom_eq_growLayers (nonempty : 0 < g.size) :
    g.distancesFrom 0 =
      g.growLayers g.size 1 [0] ((Array.replicate g.size none).setIfInBounds 0 (some 0)) :=
  searchQueue_eq_growLayers g.size 0 [0] _ (layered_start nonempty) (List.cons_ne_nil 0 [])
    (by omega) g.size (by rw [unmarked_start nonempty, List.length_singleton]; omega)

end Queue

theorem distancesFrom_spec (nonempty : 0 < g.size) (k j : Nat) :
    (g.distancesFrom 0)[k]? = some (some j) ↔ g.Distance k j := by
  rw [distancesFrom_eq_growLayers nonempty]
  exact growLayers_spec g.size 0 [0] _ (layered_start nonempty) (List.cons_ne_nil 0 []) (by omega) k j

theorem pathLengths_of_nonempty (nonempty : 0 < g.size) :
    g.pathLengths =
      (List.range g.size).filterMap fun i => ((g.distancesFrom 0)[i]?.getD none).map (i, ·) := by
  simp [pathLengths, entry?, Nat.pos_iff_ne_zero.mp nonempty]

theorem pathLengths_of_empty (empty : g.size = 0) : g.pathLengths = [] := by
  simp [pathLengths, entry?, empty]

theorem getD_none_eq_some {o : Option (Option Nat)} : o.getD none = some d ↔ o = some (some d) := by
  cases o <;> simp

theorem mem_pathLengths {k : Nat} : (k, d) ∈ g.pathLengths ↔ g.Distance k d := by
  by_cases nonempty : 0 < g.size
  · rw [pathLengths_of_nonempty nonempty, List.mem_filterMap]
    simp only [List.mem_range, Option.map_eq_some_iff, Prod.mk.injEq]
    constructor
    · rintro ⟨i, -, x, found, rfl, rfl⟩
      exact (distancesFrom_spec nonempty i x).mp (getD_none_eq_some.mp found)
    · intro dk
      exact ⟨k, dk.reaches.lt_size, d,
        getD_none_eq_some.mpr ((distancesFrom_spec nonempty k d).mpr dk), rfl, rfl⟩
  · rw [pathLengths_of_empty (by omega)]
    simp only [List.not_mem_nil, false_iff]
    exact fun dk => not_reaches_of_empty (by omega) dk.reaches

theorem pathLengths_increasing : (g.pathLengths.map Prod.fst).Pairwise (· < ·) := by
  by_cases nonempty : 0 < g.size
  · rw [pathLengths_of_nonempty nonempty, List.pairwise_map]
    refine List.pairwise_lt_range.filterMap _ fun a a' lt b found b' found' => ?_
    obtain ⟨x, -, rfl⟩ := Option.map_eq_some_iff.mp found
    obtain ⟨x', -, rfl⟩ := Option.map_eq_some_iff.mp found'
    exact lt
  · simp [pathLengths_of_empty (show g.size = 0 by omega)]

/-- The distances of a graph: one entry per block the entry reaches, in block order, each with
the fewest successor edges on a path from the entry to it, and `0` for the entry. -/
structure ShortestDistances (g : Cfg) : Prop where
  increasing : (g.pathLengths.map Prod.fst).Pairwise (· < ·)
  reached : ∀ k, k ∈ g.pathLengths.map Prod.fst ↔ g.Reaches .forward 0 k
  shortest : ∀ k d, (k, d) ∈ g.pathLengths ↔ g.Distance k d
  entry : 0 < g.size → (0, 0) ∈ g.pathLengths

end Cfg

theorem pathLengths_shortest (g : Cfg) : g.ShortestDistances := by
  refine ⟨Cfg.pathLengths_increasing, fun k => ?_, fun k d => Cfg.mem_pathLengths,
    fun nonempty => Cfg.mem_pathLengths.mpr (Cfg.distance_zero_iff.mpr ⟨rfl, nonempty⟩)⟩
  simp only [List.mem_map, Prod.exists, exists_and_right, exists_eq_right]
  constructor
  · rintro ⟨d, mem⟩
    exact (Cfg.mem_pathLengths.mp mem).reaches
  · intro reach
    obtain ⟨d, dk⟩ := Cfg.exists_distance reach
    exact ⟨d, Cfg.mem_pathLengths.mpr dk⟩

end BrilFlow

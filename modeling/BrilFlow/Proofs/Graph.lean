import Mathlib.Algebra.BigOperators.Group.Finset.Basic
import BrilFlow.Cfg.Reach

/-! Graphs built from functions, and reachability. A built graph has one successor list per
block, every successor in range and predecessors derived from successors, so a block flows into
another exactly when the other flows out of it. Reachability is the least set holding the start
and closed under flow-out edges; the marking computed by `reachableFrom` is exactly that set. -/
namespace BrilFlow.Cfg

/-- The predecessors of block `j`: the blocks listing it as a successor, increasing. -/
def predecessorsOf (succs : Array (List Nat)) (j : Nat) : List Nat :=
  (List.range succs.size).filter fun i => (succs[i]?.getD []).contains j

section Predecessors

theorem insertIndex_of_lt {x : Nat} {xs : List Nat} (below : ∀ y ∈ xs, x < y) :
    insertIndex x xs = x :: xs := by
  cases xs with
  | nil => rfl
  | cons y ys => simp [insertIndex, Nat.le_of_lt (below y List.mem_cons_self)]

theorem sortIndices_of_increasing : ∀ {xs : List Nat}, xs.Pairwise (· < ·) → sortIndices xs = xs
  | [], _ => rfl
  | x :: xs, increasing => by
    have tail := sortIndices_of_increasing (List.pairwise_cons.mp increasing).2
    rw [sortIndices, List.foldr_cons, ← sortIndices, tail]
    exact insertIndex_of_lt (List.pairwise_cons.mp increasing).1

theorem foldl_recordPredecessor (src : Nat) : ∀ (ss : List Nat) (preds : Array (List Nat)) (j : Nat),
    (ss.foldl (recordPredecessor src) preds)[j]? =
      preds[j]?.map fun ps => if j ∈ ss ∧ src ∉ ps then ps ++ [src] else ps
  | [], preds, j => by simp
  | s :: ss, preds, j => by
    rw [List.foldl_cons, foldl_recordPredecessor src ss, recordPredecessor, Array.getElem?_modify]
    by_cases same : s = j
    · subst same
      cases preds[s]? with
      | none => simp
      | some ps =>
        -- after the first sighting the list holds `src`, so later ones change nothing
        by_cases held : src ∈ ps <;> simp [held]
    · simp [same, Ne.symm same]

/-- After the first `n` blocks are recorded, the list of every block holds, in increasing order,
the blocks before `n` that list it. -/
theorem foldl_recordPredecessors (succs : Array (List Nat)) (n j : Nat) :
    ((List.range n).foldl (fun preds src =>
      (succs[src]?.getD []).foldl (recordPredecessor src) preds) (Array.replicate succs.size []))[j]? =
      if j < succs.size then
        some ((List.range n).filter fun i => (succs[i]?.getD []).contains j)
      else none := by
  induction n with
  | zero => simp [Array.getElem?_replicate]
  | succ n ih =>
    rw [List.range_succ, List.foldl_append, List.foldl_cons, List.foldl_nil,
      foldl_recordPredecessor, ih]
    split
    · by_cases listed : j ∈ succs[n]?.getD [] <;> simp [listed, List.filter_append]
    · rfl

/-- The loop lists the predecessors of each block as the filter over all blocks does. -/
theorem predecessorLists_getElem? (succs : Array (List Nat)) (j : Nat) :
    (predecessorLists succs)[j]? = if j < succs.size then some (predecessorsOf succs j) else none := by
  rw [predecessorLists, Array.getElem?_map, foldl_recordPredecessors]
  split
  · rw [Option.map_some, predecessorsOf, sortIndices_of_increasing (List.pairwise_lt_range.filter _)]
  · rfl

end Predecessors

/-- What building from a function guarantees of a graph. -/
structure WellFormed (g : Cfg) : Prop where
  succs_size : g.succs.size = g.size
  succ_lt : ∀ {i j}, j ∈ g.successors i → j < g.size
  preds_eq : ∀ j, g.predecessors j = predecessorsOf g.succs j

theorem forall₂_of_mapM_ok {ε α β : Type} {f : α → Except ε β} :
    ∀ {l : List α} {r : List β}, l.mapM f = .ok r → List.Forall₂ (fun a b => f a = .ok b) l r
  | [], r, h => by
    simp only [List.mapM_nil] at h
    cases h; exact .nil
  | a :: l, r, h => by
    simp only [List.mapM_cons] at h
    cases ha : f a with
    | error e => simp [ha] at h; cases h
    | ok b =>
      cases hl : l.mapM f with
      | error e => simp [ha, hl] at h; cases h
      | ok bs =>
        simp only [ha, hl] at h
        cases h
        exact .cons ha (forall₂_of_mapM_ok hl)

theorem exists_of_mapM_ok {ε α β : Type} {f : α → Except ε β} {l : List α} {r : List β}
    (h : l.mapM f = .ok r) {b : β} (hb : b ∈ r) : ∃ a ∈ l, f a = .ok b := by
  have each := forall₂_of_mapM_ok h
  clear h
  induction each with
  | nil => simp at hb
  | @cons a b' l r hab _ ih =>
    rcases List.mem_cons.mp hb with rfl | hb
    · exact ⟨a, by simp, hab⟩
    · obtain ⟨a', ha', found⟩ := ih hb
      exact ⟨a', List.mem_cons_of_mem _ ha', found⟩

theorem successorsOf_lt {blocks : Array NamedBlock} {i : Nat} {nb : NamedBlock}
    {succs : List Nat} (h : successorsOf blocks i nb = .ok succs) :
    ∀ j ∈ succs, j < blocks.size := by
  unfold successorsOf at h
  split at h
  · split at h
    · cases h; simp
    · intro j hj
      obtain ⟨l, -, found⟩ := exists_of_mapM_ok h hj
      split at found
      · next idx hidx =>
        cases found
        exact (Array.findIdx?_eq_some_iff_getElem.mp hidx).1
      · cases found
  · cases h
    split <;> simp_all

theorem ofBlocks_wellFormed {blocks : List NamedBlock} {g : Cfg} (h : ofBlocks blocks = .ok g) :
    g.WellFormed := by
  unfold ofBlocks at h
  simp only at h
  generalize hs : List.mapM
      (fun i => successorsOf blocks.toArray i (blocks.toArray[i]?.getD default))
      (List.range blocks.toArray.size) = res at h
  cases res with
  | error e => cases h
  | ok succs =>
    cases h
    have len := (forall₂_of_mapM_ok hs).length_eq
    simp only [List.length_range] at len
    -- every successor list is the answer of `successorsOf` for its block, so it stays in range
    have entry : ∀ i (hi : i < succs.length), ∀ j ∈ succs[i], j < blocks.toArray.size := by
      intro i hi j hj
      have := (forall₂_of_mapM_ok hs).get (by simpa [len] using hi) hi
      simp only [List.get_eq_getElem, List.getElem_range] at this
      exact successorsOf_lt this j hj
    have lookup : ∀ i,
        (succs.toArray[i]?.getD []) = if h : i < succs.length then succs[i] else [] := by
      intro i
      split <;> simp_all
    refine ⟨by simp [size, len], fun {i j} hj => ?_, fun j => ?_⟩
    · simp only [successors, size, lookup] at hj ⊢
      split at hj
      · exact entry i ‹_› j hj
      · simp at hj
    · simp only [predecessors, predecessorLists_getElem?]
      split
      · rfl
      · next hj =>
        symm
        apply List.filter_eq_nil_iff.mpr
        intro i hi
        simp only [List.mem_range, List.size_toArray] at hi
        simp only [lookup, List.contains_iff_mem]
        intro hji
        rw [dif_pos hi] at hji
        exact hj (by simpa [len] using entry i hi j hji)

theorem ofFunction_wellFormed {f : Function} {g : Cfg} (h : ofFunction f = .ok g) :
    g.WellFormed := by
  unfold ofFunction at h
  cases hn : nameBlocks (partition f.instrs) with
  | error e => simp [hn] at h; cases h
  | ok named =>
    simp only [hn] at h
    exact ofBlocks_wellFormed h

namespace WellFormed

variable {g : Cfg} (hg : g.WellFormed)
include hg

theorem lt_of_mem_successors {i j : Nat} (h : j ∈ g.successors i) : i < g.size := by
  rw [← hg.succs_size]
  by_contra out
  simp [successors, Array.getElem?_eq_none (Nat.le_of_not_lt out)] at h

theorem mem_predecessors {i j : Nat} : i ∈ g.predecessors j ↔ j ∈ g.successors i := by
  rw [hg.preds_eq, predecessorsOf, List.mem_filter, List.mem_range, List.contains_iff_mem]
  exact ⟨fun h => h.2, fun h => ⟨hg.succs_size ▸ hg.lt_of_mem_successors h, h⟩⟩

theorem mem_flowIn {d : Direction} {n q : Nat} : q ∈ g.flowIn n d ↔ n ∈ g.flowOut q d := by
  cases d with
  | forward => exact hg.mem_predecessors
  | backward => exact hg.mem_predecessors.symm

theorem flowOut_lt {d : Direction} {i j : Nat} (h : j ∈ g.flowOut i d) : j < g.size := by
  cases d with
  | forward => exact hg.succ_lt h
  | backward => exact hg.lt_of_mem_successors (hg.mem_predecessors.mp h)

end WellFormed

/-- Block `n` is reached from block `s` along the flow-out edges of a direction. -/
inductive Reaches (g : Cfg) (d : Direction) (s : Nat) : Nat → Prop
  | start : s < g.size → Reaches g d s s
  | edge {m n : Nat} : Reaches g d s m → n ∈ g.flowOut m d → n < g.size → Reaches g d s n

theorem Reaches.lt_size {g : Cfg} {d : Direction} {s n : Nat} (h : g.Reaches d s n) :
    n < g.size := by
  cases h with
  | start lt => exact lt
  | edge _ _ lt => exact lt

theorem Reaches.start_lt {g : Cfg} {d : Direction} {s n : Nat} (h : g.Reaches d s n) :
    s < g.size := by
  induction h with
  | start lt => exact lt
  | edge _ _ _ ih => exact ih

theorem not_reaches_of_empty {g : Cfg} (empty : g.size = 0) {d : Direction} {s k : Nat} :
    ¬g.Reaches d s k := fun reach => by
  have := reach.start_lt
  omega

section Search

variable {g : Cfg} {d : Direction} {s : Nat}

/-- A state of the search from `s`: whatever is visited or queued is reachable, `s` is visited or
queued, and every in-range flow-out neighbour of a visited block is visited or queued. -/
structure Search (g : Cfg) (d : Direction) (s : Nat) (queue : List Nat) (visited : Array Bool) :
    Prop where
  size : visited.size = g.size
  visited_reaches : ∀ k, visited[k]? = some true → g.Reaches d s k
  queued_reaches : ∀ k ∈ queue, g.Reaches d s k
  start : visited[s]? = some true ∨ s ∈ queue
  closed : ∀ i, visited[i]? = some true → ∀ n ∈ g.flowOut i d, n < g.size →
    visited[n]? = some true ∨ n ∈ queue

/-- The flow-out entries of the blocks not yet visited: each pop lowers it, with the queue. -/
def unvisitedWeight (g : Cfg) (d : Direction) (visited : Array Bool) : Nat :=
  ∑ i ∈ (Finset.range g.size).filter (fun i => visited[i]? = some false), (g.flowOut i d).length

theorem visited_or_queued {V V' : Array Bool} {b k : Nat} {Q Q' : List Nat}
    (keep : ∀ j : Nat, V[j]? = some true → V'[j]? = some true) (hb : V'[b]? = some true)
    (sub : ∀ k ∈ Q, k ∈ Q') (h : V[k]? = some true ∨ k ∈ b :: Q) : V'[k]? = some true ∨ k ∈ Q' := by
  rcases h with h | h
  · exact .inl (keep k h)
  · rcases List.mem_cons.mp h with rfl | h
    · exact .inl hb
    · exact .inr (sub k h)

theorem Search.drop {b : Nat} {queue : List Nat} {visited : Array Bool}
    (search : g.Search d s (b :: queue) visited) (seen : visited[b]? = some true) :
    g.Search d s queue visited where
  size := search.size
  visited_reaches := search.visited_reaches
  queued_reaches k mem := search.queued_reaches k (List.mem_cons_of_mem b mem)
  start := visited_or_queued (fun _ h => h) seen (fun _ h => h) search.start
  closed i vi n edge inRange :=
    visited_or_queued (fun _ h => h) seen (fun _ h => h) (search.closed i vi n edge inRange)

theorem Search.mark {b : Nat} {queue : List Nat} {visited : Array Bool}
    (search : g.Search d s (b :: queue) visited) :
    g.Search d s (queue ++ (g.flowOut b d).filter fun n => !((visited.setIfInBounds b true)[n]?.getD true))
      (visited.setIfInBounds b true) := by
  have reach := search.queued_reaches b List.mem_cons_self
  have lt : b < visited.size := search.size ▸ reach.lt_size
  have get : ∀ k : Nat, (visited.setIfInBounds b true)[k]? =
      if b = k then some true else visited[k]? := by
    intro k
    simp [Array.getElem?_setIfInBounds, lt]
  have keep : ∀ k : Nat, visited[k]? = some true → (visited.setIfInBounds b true)[k]? = some true := by
    intro k h
    rw [get]
    split <;> simp_all
  have hb : (visited.setIfInBounds b true)[b]? = some true := by simp [get]
  have sub : ∀ k ∈ queue, k ∈ queue ++ (g.flowOut b d).filter
      (fun n => !((visited.setIfInBounds b true)[n]?.getD true)) := fun k h => List.mem_append_left _ h
  have size : (visited.setIfInBounds b true).size = g.size := by
    rw [Array.size_setIfInBounds, search.size]
  refine ⟨size, fun k h => ?_, fun k mem => ?_, visited_or_queued keep hb sub search.start,
    fun i vi n edge inRange => ?_⟩
  · rw [get] at h
    split at h
    · next same => exact same ▸ reach
    · exact search.visited_reaches k h
  · rcases List.mem_append.mp mem with mem | mem
    · exact search.queued_reaches k (List.mem_cons_of_mem b mem)
    · -- a queued neighbour is unvisited, so in range, and one edge past `b`
      obtain ⟨edge, unvisited⟩ := List.mem_filter.mp mem
      have inRange : k < g.size := by
        by_contra out
        simp [Array.getElem?_eq_none (show (visited.setIfInBounds b true).size ≤ k by omega)] at unvisited
      exact .edge reach edge inRange
  · rw [get] at vi
    split at vi
    · next same =>
      subst same
      by_cases marked : (visited.setIfInBounds b true)[n]? = some true
      · exact .inl marked
      · refine .inr (List.mem_append_right _ (List.mem_filter.mpr ⟨edge, ?_⟩))
        rw [Array.getElem?_eq_getElem (size ▸ inRange)] at marked ⊢
        simpa using marked
    · exact visited_or_queued keep hb sub (search.closed i vi n edge inRange)

theorem unvisitedWeight_mark {b : Nat} {visited : Array Bool} (size : visited.size = g.size)
    (fresh : visited[b]? = some false) :
    unvisitedWeight g d (visited.setIfInBounds b true) + (g.flowOut b d).length =
      unvisitedWeight g d visited := by
  have lt : b < visited.size := (Array.getElem?_eq_some_iff.mp fresh).1
  have erase : (Finset.range g.size).filter (fun i => (visited.setIfInBounds b true)[i]? = some false) =
      ((Finset.range g.size).filter fun i => visited[i]? = some false).erase b := by
    ext k
    by_cases same : b = k
    · subst same
      simp [Array.getElem?_setIfInBounds, lt]
    · simp [Array.getElem?_setIfInBounds, same, Ne.symm same]
  have weight := Finset.add_sum_erase ((Finset.range g.size).filter fun i => visited[i]? = some false)
    (fun i => (g.flowOut i d).length) (Finset.mem_filter.mpr ⟨Finset.mem_range.mpr (size ▸ lt), fresh⟩)
  rw [unvisitedWeight, unvisitedWeight, erase, ← weight, Nat.add_comm]

/-- One pop keeps the search state and lowers the queue's length plus the unvisited weight. -/
theorem Search.visitBlock {b : Nat} {queue : List Nat} {visited : Array Bool}
    (search : g.Search d s (b :: queue) visited) :
    g.Search d s (g.visitBlock d b queue visited).1 (g.visitBlock d b queue visited).2 ∧
      (g.visitBlock d b queue visited).1.length +
          unvisitedWeight g d (g.visitBlock d b queue visited).2 <
        (b :: queue).length + unvisitedWeight g d visited := by
  have lt : b < visited.size := search.size ▸ (search.queued_reaches b List.mem_cons_self).lt_size
  unfold Cfg.visitBlock
  split
  · next seen =>
    -- a block visited already is dropped
    have seen : visited[b]? = some true := by
      rw [Array.getElem?_eq_getElem lt] at seen ⊢
      simpa using seen
    exact ⟨search.drop seen, by simp⟩
  · next fresh =>
    have fresh : visited[b]? = some false := by
      rw [Array.getElem?_eq_getElem lt] at fresh ⊢
      simpa using fresh
    -- `b` leaves the unvisited blocks, and at most its flow-out entries join the queue
    have weight := unvisitedWeight_mark (d := d) search.size fresh
    have filtered := List.length_filter_le (fun n => !((visited.setIfInBounds b true)[n]?.getD true))
      (g.flowOut b d)
    refine ⟨search.mark, ?_⟩
    simp only [List.length_append, List.length_cons]
    omega

/-- With a pop for every queued block and unvisited flow-out entry, the queue runs empty and
leaves a search state. -/
theorem Search.visitQueue : ∀ (fuel : Nat) (queue : List Nat) (visited : Array Bool),
    g.Search d s queue visited → queue.length + unvisitedWeight g d visited ≤ fuel →
    g.Search d s [] (g.visitQueue d fuel queue visited)
  | 0, queue, visited, search, enough => by
    obtain rfl : queue = [] := List.eq_nil_of_length_eq_zero (by omega)
    exact search
  | fuel + 1, [], visited, search, _ => search
  | fuel + 1, b :: queue, visited, search, enough => by
    obtain ⟨next, lower⟩ := search.visitBlock
    rw [Cfg.visitQueue]
    exact Search.visitQueue fuel _ _ next (by omega)

/-- Once the queue is empty, the visited blocks are exactly the reachable ones. -/
theorem Search.reaches_iff {visited : Array Bool} (search : g.Search d s [] visited) (n : Nat) :
    visited[n]?.getD false = true ↔ g.Reaches d s n := by
  constructor
  · intro h
    apply search.visited_reaches
    cases hv : visited[n]? with
    | none => simp [hv] at h
    | some v => simp_all
  · intro reach
    have marked : visited[n]? = some true := by
      induction reach with
      | start _ => simpa using search.start
      | edge _ edge inRange ih => simpa using search.closed _ ih _ edge inRange
    simp [marked]

theorem search_start (lt : s < g.size) : g.Search d s [s] (Array.replicate g.size false) where
  size := by simp
  visited_reaches k h := by simp [Array.getElem?_replicate] at h
  queued_reaches k mem := by
    rw [List.mem_singleton.mp mem]
    exact .start lt
  start := .inr (List.mem_singleton_self s)
  closed i h := by simp [Array.getElem?_replicate] at h

theorem unvisitedWeight_replicate :
    unvisitedWeight g d (Array.replicate g.size false) =
      (List.range g.size).foldr (fun i n => (g.flowOut i d).length + n) 0 := by
  have all : (Finset.range g.size).filter
      (fun i => (Array.replicate g.size false)[i]? = some false) = Finset.range g.size := by
    ext k
    simp +contextual [Array.getElem?_replicate]
  rw [unvisitedWeight, all, Finset.sum_eq_multiset_sum, Finset.range_val, Multiset.range,
    Multiset.map_coe, Multiset.sum_coe, List.sum, List.foldr_map]

end Search

/-- The marking computed by `reachableFrom` is exactly the set of reachable blocks. -/
theorem reachableFrom_iff {g : Cfg} {d : Direction} {s n : Nat} :
    (g.reachableFrom s d)[n]?.getD false = true ↔ g.Reaches d s n := by
  unfold reachableFrom
  split
  · next out =>
    simp only [Array.getElem?_replicate]
    constructor
    · intro h; split at h <;> simp at h
    · intro h; exact absurd h.start_lt (by omega)
  · next lt =>
    refine (Search.visitQueue _ _ _ (search_start (by omega)) ?_).reaches_iff n
    rw [unvisitedWeight_replicate, List.length_singleton]

instance {g : Cfg} {d : Direction} {s n : Nat} : Decidable (g.Reaches d s n) :=
  decidable_of_iff _ reachableFrom_iff

def reachableSet (g : Cfg) (d : Direction) (s : Nat) : Finset Nat :=
  (Finset.range g.size).filter fun n => g.Reaches d s n

@[simp] theorem mem_reachableSet {g : Cfg} {d : Direction} {s n : Nat} :
    n ∈ g.reachableSet d s ↔ g.Reaches d s n := by
  simp only [reachableSet, Finset.mem_filter, Finset.mem_range, and_iff_right_iff_imp]
  exact Reaches.lt_size

end BrilFlow.Cfg

namespace BrilFlow

theorem exists_of_forall₂ {γ δ : Type} {R : γ → δ → Prop} {xs : List γ} {ys : List δ}
    (h : List.Forall₂ R xs ys) {x : γ} (mem : x ∈ xs) : ∃ y ∈ ys, R x y := by
  induction h with
  | nil => simp at mem
  | cons r _ ih =>
    rcases List.mem_cons.mp mem with rfl | mem
    · exact ⟨_, List.mem_cons_self, r⟩
    · obtain ⟨y, hy, rel⟩ := ih mem
      exact ⟨y, List.mem_cons_of_mem _ hy, rel⟩

deriving instance DecidableEq for Cfg

/-- A loop of two blocks: `top` sets `x` and branches back to itself or on to `done`, which
returns. -/
def loopFunction : Function :=
  { name := "main",
    instrs := [.label "top", .op (Operation.constant "x" (.int 1)),
      .op (Operation.branch "x" "top" "done"), .label "done", .op .ret] }

def loopGraph : Cfg :=
  { blocks := #[
      { name := "top",
        block := { label := some "top",
                   ops := [Operation.constant "x" (.int 1), Operation.branch "x" "top" "done"] } },
      { name := "done", block := { label := some "done", ops := [.ret] } }]
    succs := #[[0, 1], []]
    preds := #[[0], [0]] }

theorem ofFunction_loopFunction : Cfg.ofFunction loopFunction = .ok loopGraph := by
  decide +kernel

end BrilFlow

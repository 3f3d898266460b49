import Mathlib.Algebra.BigOperators.Ring.Finset
import Mathlib.Algebra.Order.BigOperators.Group.Finset
import BrilFlow.Proofs.EngineRun

/-! What the engine returns. A run that ends with nothing waiting holds a solution of the
equations; from the initial values it stays below every solution, so what it holds is the least
solution, whatever order the worklist takes blocks in. Seeded with its own result the engine
takes every reachable block once and changes nothing. -/
namespace BrilFlow

variable {α : Type}

namespace Cfg

def startOf (g : Cfg) : Direction → Nat
  | .forward => 0
  | .backward => g.size - 1

theorem start?_eq (g : Cfg) (d : Direction) :
    g.start? d = if g.size = 0 then none else some (g.startOf d) := by
  cases d <;> rfl

end Cfg

theorem eq_of_getElem?_join {a b : Array (Option α)} (size : a.size = b.size)
    (same : ∀ n : Nat, a[n]?.join = b[n]?.join) : a = b := by
  apply Array.ext size
  intro n ha hb
  simpa [ha, hb] using same n

namespace Problem

/-- What block `n` first sends: its value in `seed` where that has one, the initial value
elsewhere. -/
def seedOf (p : Problem α) (seed : Option (Array (Option α))) (n : Nat) : α :=
  ((seed.bind (·[n]?)).join).getD p.init

/-- The state the engine starts from at `start`: the start receives the initial value, and every
reachable block sends its seed and waits, in block order (reversed backwards). -/
def startState (g : Cfg) (p : Problem α) (config : EngineConfig)
    (seed : Option (Array (Option α))) (start : Nat) : EngineState α :=
  let reach := g.reachableFrom start p.direction
  { flowIn := (Array.replicate g.size none).setIfInBounds start (some p.init)
    flowOut := (Array.range g.size).map fun n =>
      if reach[n]?.getD false then some (p.seedOf seed n) else none
    work := (match p.direction with
      | .forward => List.range g.size
      | .backward => (List.range g.size).reverse).foldl
        (fun w n => if reach[n]?.getD false then w.push n else w) (Worklist.empty g.size config)
    visits := 0 }

def tablesOf (p : Problem α) (s : EngineState α) : Solution α :=
  match p.direction with
  | .forward => { input := s.flowIn, output := s.flowOut, visits := s.visits }
  | .backward => { input := s.flowOut, output := s.flowIn, visits := s.visits }

/-- Values the engine can start from: canonical, bounded, and at most what each reachable block
would send next. -/
def Framework.Seeds {p : Problem α} (fw : p.Framework) (g : Cfg) (start : Nat) (v : Nat → α) :
    Prop :=
  ∀ n, g.Reaches p.direction start n →
    fw.canon (v n) ∧ fw.bounded (v n) ∧ fw.le (v n) (p.transfer n (p.receives g start v n))

theorem Framework.seeds_init {p : Problem α} (fw : p.Framework) (g : Cfg) (start : Nat) :
    fw.Seeds g start (p.seedOf none) :=
  fun n _ => ⟨fw.canon_init, fw.bounded_init, fw.init_le (fw.canon_step _ n)⟩

end Problem

namespace Solution

def received (p : Problem α) (sol : Solution α) : Array (Option α) :=
  match p.direction with
  | .forward => sol.input
  | .backward => sol.output

def sends (p : Problem α) (sol : Solution α) : Array (Option α) :=
  match p.direction with
  | .forward => sol.output
  | .backward => sol.input

/-- The tables hold `IN` and `OUT` on the blocks reachable from `start`, and nothing
elsewhere. -/
structure Holds (g : Cfg) (p : Problem α) (start : Nat) (IN OUT : Nat → α) (sol : Solution α) :
    Prop where
  received_size : (sol.received p).size = g.size
  sends_size : (sol.sends p).size = g.size
  received : ∀ n, g.Reaches p.direction start n → (sol.received p)[n]?.join = some (IN n)
  sends : ∀ n, g.Reaches p.direction start n → (sol.sends p)[n]?.join = some (OUT n)
  unreached : ∀ n, ¬g.Reaches p.direction start n →
    (sol.received p)[n]?.join = none ∧ (sol.sends p)[n]?.join = none

@[simp] theorem received_tablesOf (p : Problem α) (s : EngineState α) :
    (p.tablesOf s).received p = s.flowIn := by
  unfold received Problem.tablesOf
  split <;> simp_all

@[simp] theorem sends_tablesOf (p : Problem α) (s : EngineState α) :
    (p.tablesOf s).sends p = s.flowOut := by
  unfold sends Problem.tablesOf
  split <;> simp_all

@[simp] theorem visits_tablesOf (p : Problem α) (s : EngineState α) :
    (p.tablesOf s).visits = s.visits := by
  unfold Problem.tablesOf
  split <;> rfl

theorem tables_eq_of_flow (p : Problem α) {sol sol' : Solution α}
    (received : sol.received p = sol'.received p) (sends : sol.sends p = sol'.sends p) :
    sol.input = sol'.input ∧ sol.output = sol'.output := by
  unfold Solution.received Solution.sends at *
  split at received <;> simp_all

end Solution

namespace EngineState

section Final

variable {g : Cfg} {p : Problem α} {fw : p.Framework} {start : Nat} {s t : EngineState α}

theorem Inv.solves (inv : s.Inv g p fw start) (empty : s.work.queue = []) :
    p.Solves g start (p.receives g start (s.sent p)) (s.sent p) where
  input _ _ := rfl
  output n reach := (inv.settled n reach (by simp [empty])).1

theorem Inv.flowIn_of_queue_nil (inv : s.Inv g p fw start) (empty : s.work.queue = [])
    {n : Nat} (reach : g.Reaches p.direction start n) :
    s.flowIn[n]?.join = some (p.receives g start (s.sent p) n) :=
  (inv.settled n reach (by simp [empty])).2

theorem Inv.holds (inv : s.Inv g p fw start) (empty : s.work.queue = []) :
    (p.tablesOf s).Holds g p start (p.receives g start (s.sent p)) (s.sent p) where
  received_size := by simp [inv.in_size]
  sends_size := by simp [inv.out_size]
  received _ reach := by simpa using inv.flowIn_of_queue_nil empty reach
  sends n reach := by simpa using inv.sends n reach
  unreached n reach := by simpa using (inv.silent n reach).symm

/-- Two states with nothing waiting whose reachable blocks send the same values hold the same
tables. -/
theorem Inv.tables_eq (inv : s.Inv g p fw start) (inv' : t.Inv g p fw start)
    (empty : s.work.queue = []) (empty' : t.work.queue = [])
    (same : ∀ n, g.Reaches p.direction start n → s.sent p n = t.sent p n) :
    s.flowIn = t.flowIn ∧ s.flowOut = t.flowOut := by
  constructor
  · apply eq_of_getElem?_join (by rw [inv.in_size, inv'.in_size])
    intro n
    by_cases reach : g.Reaches p.direction start n
    · rw [inv.flowIn_of_queue_nil empty reach, inv'.flowIn_of_queue_nil empty' reach,
        Problem.receives_congr fun q _ hq => same q hq]
    · rw [(inv.silent n reach).2, (inv'.silent n reach).2]
  · apply eq_of_getElem?_join (by rw [inv.out_size, inv'.out_size])
    intro n
    by_cases reach : g.Reaches p.direction start n
    · rw [inv.sends n reach, inv'.sends n reach, same n reach]
    · rw [(inv.silent n reach).1, (inv'.silent n reach).1]

theorem sent_congr (p : Problem α) (same : t.flowOut = s.flowOut) : t.sent p = s.sent p := by
  funext q
  simp only [sent, same]

/-- Every reachable block sends at most what it sends under `OUT`. -/
def Below (fw : p.Framework) (g : Cfg) (start : Nat) (OUT : Nat → α) (s : EngineState α) :
    Prop :=
  ∀ n, g.Reaches p.direction start n → fw.le (s.sent p n) (OUT n)

variable [DecidableEq α] {OUT : Nat → α} {node drawn : Nat} {w : Worklist}

theorem Below.visit (closed : fw.Closed g start OUT) (inv : s.Inv g p fw start)
    (below : Below fw g start OUT s) (pop : s.work.pop? drawn = some (node, w)) :
    Below fw g start OUT (({ s with work := w, visits := s.visits + 1 } : EngineState α).visit
      g p (g.reachableFrom start p.direction) start node) := by
  intro q reach
  rw [inv.sent_visit pop q]
  split
  · next here =>
    subst here
    exact fw.le_trans (fw.step_mono inv.canon (fun n hn => (closed n hn).1) below q)
      (closed q reach).2
  · exact below q reach

theorem Below.after_run (hg : g.WellFormed) (closed : fw.Closed g start OUT)
    (inv : s.Inv g p fw start) (below : Below fw g start OUT s) (fuel : Nat) :
    Below fw g start OUT (run g p (g.reachableFrom start p.direction) start fuel s) :=
  (run_induction g p _ start (fun t => t.Inv g p fw start ∧ Below fw g start OUT t)
    (fun _ _ _ _ h pop => ⟨h.1.step hg pop, h.2.visit closed h.1 pop⟩) fuel s ⟨inv, below⟩).2

theorem Inv.visit_of_fixed (inv : s.Inv g p fw start) (pop : s.work.pop? drawn = some (node, w))
    (fixed : ∀ n, g.Reaches p.direction start n →
      s.sent p n = p.transfer n (p.receives g start (s.sent p) n)) :
    let t := (({ s with work := w, visits := s.visits + 1 } : EngineState α).visit
      g p (g.reachableFrom start p.direction) start node)
    t.flowOut = s.flowOut ∧ t.visits + t.work.queue.length = s.visits + s.work.queue.length := by
  have reach : g.Reaches p.direction start node := inv.reaches_of_pop pop
  have same : s.flowOut[node]?.join =
      some (p.transfer node (p.receives g start (s.sent p) node)) := by
    rw [inv.sends node reach, ← fixed node reach]
  have popped : w.queue.length + 1 = s.work.queue.length := Worklist.length_pop? pop
  rw [visit_of_same (inv.sends_taken w _) same]
  exact ⟨rfl, by simp only; omega⟩

theorem Inv.run_of_fixed (hg : g.WellFormed) (inv : s.Inv g p fw start)
    (fixed : ∀ n, g.Reaches p.direction start n →
      s.sent p n = p.transfer n (p.receives g start (s.sent p) n)) (fuel : Nat) :
    let t := run g p (g.reachableFrom start p.direction) start fuel s
    t.flowOut = s.flowOut ∧ t.visits + t.work.queue.length = s.visits + s.work.queue.length := by
  have kept := run_induction g p _ start (fun t => t.Inv g p fw start ∧ t.flowOut = s.flowOut ∧
      t.visits + t.work.queue.length = s.visits + s.work.queue.length)
    (fun t _ node w ⟨invT, out, count⟩ pop => by
      have sent : t.sent p = s.sent p := sent_congr p out
      obtain ⟨out', count'⟩ := invT.visit_of_fixed pop (by rw [sent]; exact fixed)
      exact ⟨invT.step hg pop, out'.trans out, count'.trans count⟩) fuel s ⟨inv, rfl, rfl⟩
  exact kept.2

end Final

end EngineState

namespace Problem

section Start

variable {g : Cfg} {p : Problem α} {config : EngineConfig} {seed : Option (Array (Option α))}
  {start : Nat}

theorem startState_flowOut (n : Nat) :
    (p.startState g config seed start).flowOut[n]?.join =
      if g.Reaches p.direction start n then some (p.seedOf seed n) else none := by
  by_cases lt : n < g.size
  · simp only [startState, Array.getElem?_map, Array.getElem?_range, lt, if_true,
      Option.map_some, Option.join_some, Cfg.reachableFrom_iff]
  · have : ¬g.Reaches p.direction start n := fun reach => lt reach.lt_size
    simp [startState, lt, this]

theorem sent_startState {n : Nat} (reach : g.Reaches p.direction start n) :
    (p.startState g config seed start).sent p n = p.seedOf seed n := by
  simp [EngineState.sent, startState_flowOut, reach]

theorem startState_queue : (p.startState g config seed start).work.queue =
    (match p.direction with
      | .forward => List.range g.size
      | .backward => (List.range g.size).reverse).filter
      fun n => (g.reachableFrom start p.direction)[n]?.getD false := by
  simp only [startState]
  rw [Worklist.pushWhere_queue (fun n h => (Cfg.reachableFrom_iff.mp h).lt_size) _
    (Worklist.valid_empty _ _) (by split <;> simp [List.nodup_range]) (by simp [Worklist.empty])]
  simp [Worklist.empty]

theorem mem_startState_queue {n : Nat} :
    n ∈ (p.startState g config seed start).work.queue ↔ g.Reaches p.direction start n := by
  rw [startState_queue, List.mem_filter, Cfg.reachableFrom_iff]
  constructor
  · exact fun h => h.2
  · intro reach
    refine ⟨?_, reach⟩
    have lt := reach.lt_size
    split <;> simp [lt]

theorem length_startState_queue :
    (p.startState g config seed start).work.queue.length =
      (g.reachableSet p.direction start).card := by
  have reached : (fun n => (g.reachableFrom start p.direction)[n]?.getD false) =
      fun n => decide (g.Reaches p.direction start n) := by
    funext n
    exact Bool.eq_iff_iff.mpr (by simp [Cfg.reachableFrom_iff])
  have count : ((List.range g.size).filter
      fun n => decide (g.Reaches p.direction start n)).length =
      (g.reachableSet p.direction start).card := by
    rw [Cfg.reachableSet, Finset.card_def, Finset.filter_val, Finset.range_val, Multiset.range,
      Multiset.filter_coe, Multiset.coe_card]
  rw [startState_queue, reached]
  split <;> simp [List.filter_reverse, count]

theorem startState_inv (fw : p.Framework) (seeds : fw.Seeds g start (p.seedOf seed)) :
    (p.startState g config seed start).Inv g p fw start := by
  have valid := (Worklist.pushWhere_valid
    (fun n (h : (g.reachableFrom start p.direction)[n]?.getD false = true) =>
      (Cfg.reachableFrom_iff.mp h).lt_size)
    (match p.direction with
      | .forward => List.range g.size
      | .backward => (List.range g.size).reverse) (Worklist.valid_empty g.size config)).1
  refine ⟨by simp [startState], by simp [startState], valid,
    fun n hn => mem_startState_queue.mp hn, fun n reach => ?_, fun n reach => ?_,
    fun n reach => ?_, fun n reach => ?_, fun n reach => ?_,
    fun n reach waiting => absurd (mem_startState_queue.mpr reach) waiting⟩
  · rw [startState_flowOut, if_pos reach, sent_startState reach]
  · refine ⟨by rw [startState_flowOut, if_neg reach], ?_⟩
    -- the start is reachable whenever it is a block, so an unreachable block is not where the
    -- initial value was put
    have away : ¬(start = n ∧ n < g.size) := fun ⟨same, lt⟩ => reach (same ▸ .start (same ▸ lt))
    simp only [startState, Array.getElem?_setIfInBounds, Array.size_replicate]
    by_cases here : start = n
    · have : ¬n < g.size := fun lt => away ⟨here, lt⟩
      simp [here, this]
    · by_cases lt : n < g.size <;> simp [lt, here]
  · rw [sent_startState reach]
    exact (seeds n reach).1
  · rw [sent_startState reach]
    exact (seeds n reach).2.1
  · rw [sent_startState reach, Problem.receives_congr fun q _ hq => sent_startState hq]
    exact (seeds n reach).2.2

theorem potential_startState_le (fw : p.Framework) :
    EngineState.potential fw g start (p.startState g config seed start) ≤
      (g.reachableSet p.direction start).card +
        ∑ k ∈ g.reachableSet p.direction start, p.height * (g.flowOut k p.direction).length := by
  unfold EngineState.potential EngineState.budget
  rw [length_startState_queue]
  exact Nat.add_le_add_left (Finset.sum_le_sum fun k _ =>
    Nat.mul_le_mul_right _ ((Nat.sub_le _ _).trans fw.height_le)) _

end Start

/-- The engine's fuel exceeds the reachable blocks plus, for each, every change of value the
problem's height allows times its number of flow-out neighbours. -/
theorem bound_lt_fuel (g : Cfg) (p : Problem α) (start : Nat) :
    (g.reachableSet p.direction start).card +
      ∑ k ∈ g.reachableSet p.direction start, p.height * (g.flowOut k p.direction).length <
      p.fuel g := by
  have sub : g.reachableSet p.direction start ⊆ Finset.range g.size := fun n hn =>
    Finset.mem_range.mpr (Cfg.mem_reachableSet.mp hn).lt_size
  have card : (g.reachableSet p.direction start).card ≤ g.size := by
    simpa using Finset.card_le_card sub
  have edges : ∑ k ∈ g.reachableSet p.direction start, (g.flowOut k p.direction).length ≤
      ((List.range g.size).map fun i => (g.flowOut i p.direction).length).sum := by
    rw [← Multiset.sum_coe, ← Multiset.map_coe, ← Multiset.range, ← Finset.range_val,
      ← Finset.sum_eq_multiset_sum]
    exact Finset.sum_le_sum_of_subset sub
  have fuel : p.fuel g = g.size + g.size * (p.height + 1) *
      (((List.range g.size).map fun i => (g.flowOut i p.direction).length).sum + 1) + 1 := rfl
  have empty : g.size = 0 →
      ((List.range g.size).map fun i => (g.flowOut i p.direction).length).sum = 0 := by
    intro h; simp [h]
  rw [fuel, ← Finset.mul_sum]
  generalize ((List.range g.size).map fun i => (g.flowOut i p.direction).length).sum = E
    at edges empty
  have changes : p.height * E ≤ g.size * (p.height + 1) * (E + 1) := by
    rcases Nat.eq_zero_or_pos g.size with none | some
    · simp [empty none]
    · calc p.height * E ≤ (p.height + 1) * (E + 1) := Nat.mul_le_mul (by omega) (by omega)
        _ ≤ g.size * ((p.height + 1) * (E + 1)) := Nat.le_mul_of_pos_left _ some
        _ = g.size * (p.height + 1) * (E + 1) := (Nat.mul_assoc ..).symm
  have := Nat.mul_le_mul_left p.height edges
  omega

theorem potential_startState_lt_fuel {g : Cfg} {p : Problem α} {config : EngineConfig}
    {seed : Option (Array (Option α))} {start : Nat} (fw : p.Framework) :
    EngineState.potential fw g start (p.startState g config seed start) < p.fuel g :=
  (potential_startState_le fw).trans_lt (bound_lt_fuel g p start)

section Run

variable [DecidableEq α]

def finalState (g : Cfg) (p : Problem α) (config : EngineConfig)
    (seed : Option (Array (Option α))) : EngineState α :=
  EngineState.run g p (g.reachableFrom (g.startOf p.direction) p.direction)
    (g.startOf p.direction) (p.fuel g) (p.startState g config seed (g.startOf p.direction))

theorem solveFrom_eq (g : Cfg) (p : Problem α) (config : EngineConfig)
    (seed : Option (Array (Option α))) :
    p.solveFrom g config seed = p.tablesOf (p.finalState g config seed) := by
  rw [solveFrom, Cfg.start?_eq]
  by_cases empty : g.size = 0
  · rw [if_pos empty]
    have queue : (p.startState g config seed (g.startOf p.direction)).work.queue = [] := by
      rw [startState_queue]
      split <;> simp [empty]
    rw [finalState, EngineState.run_of_queue_nil queue]
    dsimp only
    unfold tablesOf
    split <;> simp [startState, empty]
  · rw [if_neg empty]
    rfl

theorem solveSeeded_eq (g : Cfg) (p : Problem α) (config : EngineConfig) (first : Solution α) :
    p.solveSeeded g config first = p.solveFrom g config (some (first.sends p)) := rfl

variable {g : Cfg} {p : Problem α} (fw : p.Framework) {config : EngineConfig}
  {seed : Option (Array (Option α))}

theorem finalState_inv (hg : g.WellFormed)
    (seeds : fw.Seeds g (g.startOf p.direction) (p.seedOf seed)) :
    (p.finalState g config seed).Inv g p fw (g.startOf p.direction) :=
  (startState_inv fw seeds).after_run hg _

theorem finalState_queue (hg : g.WellFormed)
    (seeds : fw.Seeds g (g.startOf p.direction) (p.seedOf seed)) :
    (p.finalState g config seed).work.queue = [] :=
  (startState_inv fw seeds).run_queue_nil hg (potential_startState_lt_fuel fw)

theorem finalState_visits_le (hg : g.WellFormed)
    (seeds : fw.Seeds g (g.startOf p.direction) (p.seedOf seed)) :
    (p.finalState g config seed).visits ≤
      (g.reachableSet p.direction (g.startOf p.direction)).card +
        ∑ k ∈ g.reachableSet p.direction (g.startOf p.direction),
          p.height * (g.flowOut k p.direction).length := by
  calc (p.finalState g config seed).visits
      ≤ (p.finalState g config seed).visits +
          EngineState.potential fw g (g.startOf p.direction) (p.finalState g config seed) :=
        Nat.le_add_right _ _
    _ ≤ 0 + EngineState.potential fw g (g.startOf p.direction)
          (p.startState g config seed (g.startOf p.direction)) :=
        (startState_inv fw seeds).visits_run hg (p.fuel g)
    _ ≤ _ := by
        rw [Nat.zero_add]
        exact potential_startState_le fw

theorem finalState_below (hg : g.WellFormed) {OUT : Nat → α}
    (closed : fw.Closed g (g.startOf p.direction) OUT) :
    EngineState.Below fw g (g.startOf p.direction) OUT (p.finalState g config none) :=
  EngineState.Below.after_run hg closed (startState_inv fw (fw.seeds_init g _)) (fun n reach => by
    rw [sent_startState reach]
    exact fw.init_le (closed n reach).1) _

theorem solve_holds_below (hg : g.WellFormed) (config : EngineConfig) :
    ∃ IN OUT, p.Solves g (g.startOf p.direction) IN OUT ∧
      (p.solve g config).Holds g p (g.startOf p.direction) IN OUT ∧
      ∀ M, fw.Closed g (g.startOf p.direction) M →
        ∀ n, g.Reaches p.direction (g.startOf p.direction) n → fw.le (OUT n) (M n) := by
  have inv : (p.finalState g config none).Inv g p fw (g.startOf p.direction) :=
    finalState_inv fw hg (fw.seeds_init g _)
  have empty : (p.finalState g config none).work.queue = [] :=
    finalState_queue fw hg (fw.seeds_init g _)
  refine ⟨_, _, inv.solves empty, ?_, fun M closed => finalState_below fw hg closed⟩
  rw [solve, solveFrom_eq]
  exact inv.holds empty

/-- For every configuration, the engine's tables hold the least solution of the equations on
the blocks reachable from the start, and nothing elsewhere. -/
theorem solve_holds_least (hg : g.WellFormed) (config : EngineConfig) :
    ∃ IN OUT, p.Solves g (g.startOf p.direction) IN OUT ∧
      (p.solve g config).Holds g p (g.startOf p.direction) IN OUT ∧
      ∀ IN' OUT', p.Solves g (g.startOf p.direction) IN' OUT' →
        ∀ n, g.Reaches p.direction (g.startOf p.direction) n →
          fw.le (IN n) (IN' n) ∧ fw.le (OUT n) (OUT' n) := by
  obtain ⟨IN, OUT, sol, holds, below⟩ := solve_holds_below fw hg config
  refine ⟨IN, OUT, sol, holds, fun IN' OUT' sol' n reach => ?_⟩
  -- a solution is closed, so the sent values lie below it and the received ones follow
  have sent_le := below OUT' (fw.closed_of_solves sol')
  refine ⟨?_, sent_le n reach⟩
  rw [sol.input n reach, sol'.input n reach]
  exact fw.receives_mono (fun q hq => (fw.canon_of_solves sol hq).2)
    (fun q hq => (fw.canon_of_solves sol' hq).2) sent_le n

include fw in
/-- Every configuration gives the same tables: two runs each stay below what the other one
finds, and both find canonical values. -/
theorem solve_tables_eq (hg : g.WellFormed) (c c' : EngineConfig) :
    (p.solve g c).input = (p.solve g c').input ∧ (p.solve g c).output = (p.solve g c').output := by
  have inv : (p.finalState g c none).Inv g p fw (g.startOf p.direction) :=
    finalState_inv fw hg (fw.seeds_init g _)
  have inv' : (p.finalState g c' none).Inv g p fw (g.startOf p.direction) :=
    finalState_inv fw hg (fw.seeds_init g _)
  have empty : (p.finalState g c none).work.queue = [] :=
    finalState_queue fw hg (fw.seeds_init g _)
  have empty' : (p.finalState g c' none).work.queue = [] :=
    finalState_queue fw hg (fw.seeds_init g _)
  have below : EngineState.Below fw g (g.startOf p.direction)
      ((p.finalState g c' none).sent p) (p.finalState g c none) :=
    finalState_below fw hg (fw.closed_of_solves (inv'.solves empty'))
  have above : EngineState.Below fw g (g.startOf p.direction)
      ((p.finalState g c none).sent p) (p.finalState g c' none) :=
    finalState_below fw hg (fw.closed_of_solves (inv.solves empty))
  obtain ⟨ins, outs⟩ := inv.tables_eq inv' empty empty' fun n reach =>
    fw.le_antisymm (inv.canon n reach) (inv'.canon n reach) (below n reach) (above n reach)
  rw [solve, solve, solveFrom_eq, solveFrom_eq]
  exact Solution.tables_eq_of_flow p (by simp [ins]) (by simp [outs])

include fw in
/-- Seeded with what it found, under any configuration, the engine finds the same tables and
takes every reachable block exactly once. -/
theorem solveSeeded_solve (hg : g.WellFormed) (c c' : EngineConfig) :
    (p.solveSeeded g c' (p.solve g c)).input = (p.solve g c).input ∧
      (p.solveSeeded g c' (p.solve g c)).output = (p.solve g c).output ∧
      (p.solveSeeded g c' (p.solve g c)).visits =
        (g.reachableSet p.direction (g.startOf p.direction)).card := by
  have inv : (p.finalState g c none).Inv g p fw (g.startOf p.direction) :=
    finalState_inv fw hg (fw.seeds_init g _)
  have empty : (p.finalState g c none).work.queue = [] :=
    finalState_queue fw hg (fw.seeds_init g _)
  have solves := inv.solves empty
  -- seeded with its flow-out table, a block first sends what it sent in the first run
  have seedOf_sent : p.seedOf (some (p.finalState g c none).flowOut) =
      (p.finalState g c none).sent p := rfl
  have seeds : fw.Seeds g (g.startOf p.direction)
      (p.seedOf (some (p.finalState g c none).flowOut)) := by
    rw [seedOf_sent]
    intro n reach
    refine ⟨inv.canon n reach, inv.bounded n reach, ?_⟩
    rw [← solves.output n reach]
    exact fw.le_refl _
  have fixed : ∀ n, g.Reaches p.direction (g.startOf p.direction) n →
      (p.startState g c' (some (p.finalState g c none).flowOut) (g.startOf p.direction)).sent p n =
        p.transfer n (p.receives g (g.startOf p.direction) ((p.startState g c'
          (some (p.finalState g c none).flowOut) (g.startOf p.direction)).sent p) n) := by
    intro n reach
    rw [sent_startState reach, Problem.receives_congr fun q _ hq => sent_startState hq,
      seedOf_sent]
    exact solves.output n reach
  obtain ⟨out, count⟩ := (startState_inv fw seeds).run_of_fixed hg fixed (p.fuel g)
  have inv' : (p.finalState g c' (some (p.finalState g c none).flowOut)).Inv g p fw
      (g.startOf p.direction) := finalState_inv fw hg seeds
  have empty' : (p.finalState g c' (some (p.finalState g c none).flowOut)).work.queue = [] :=
    finalState_queue fw hg seeds
  have same : ∀ n, g.Reaches p.direction (g.startOf p.direction) n →
      (p.finalState g c' (some (p.finalState g c none).flowOut)).sent p n =
        (p.finalState g c none).sent p n := by
    intro n reach
    rw [finalState, EngineState.sent_congr p out, sent_startState reach, seedOf_sent]
  obtain ⟨ins, outs⟩ := inv'.tables_eq inv empty' empty same
  rw [solveSeeded_eq, solve, solveFrom_eq, solveFrom_eq, Solution.sends_tablesOf]
  refine ⟨(Solution.tables_eq_of_flow p (by simp [ins]) (by simp [outs])).1,
    (Solution.tables_eq_of_flow p (by simp [ins]) (by simp [outs])).2, ?_⟩
  rw [Solution.visits_tablesOf]
  have : (p.finalState g c' (some (p.finalState g c none).flowOut)).visits +
      (p.finalState g c' (some (p.finalState g c none).flowOut)).work.queue.length =
      0 + (g.reachableSet p.direction (g.startOf p.direction)).card := by
    rw [← length_startState_queue]
    exact count
  simpa [empty'] using this

include fw in
/-- The engine's loop stops on an empty worklist after taking at most one block per reachable
block plus, for each, its number of flow-out neighbours per change of value the problem's height
allows. -/
theorem solve_terminates (hg : g.WellFormed) (config : EngineConfig) :
    (p.finalState g config none).work.queue = [] ∧
      (p.solve g config).visits ≤ (g.reachableSet p.direction (g.startOf p.direction)).card +
        ∑ k ∈ g.reachableSet p.direction (g.startOf p.direction),
          p.height * (g.flowOut k p.direction).length := by
  refine ⟨finalState_queue fw hg (fw.seeds_init g _), ?_⟩
  rw [solve, solveFrom_eq, Solution.visits_tablesOf]
  exact finalState_visits_le fw hg (fw.seeds_init g _)

end Run

end Problem

end BrilFlow

import BrilFlow.Proofs.Solve

/-! What the engine reads: of a graph only its size and edges, and of a problem only what reached
blocks do with values built from the start value, so agreeing inputs give the same run. -/
namespace BrilFlow

variable {α : Type}

namespace Cfg

/-- Two graphs with the same number of blocks and the same edges. -/
structure SameEdges (g₁ g₂ : Cfg) : Prop where
  size : g₁.size = g₂.size
  successors : ∀ i, g₁.successors i = g₂.successors i
  predecessors : ∀ i, g₁.predecessors i = g₂.predecessors i

namespace SameEdges

variable {g₁ g₂ : Cfg} (same : g₁.SameEdges g₂)
include same

theorem flowIn_eq (i : Nat) (d : Direction) : g₁.flowIn i d = g₂.flowIn i d := by
  cases d <;> simp [flowIn, same.successors, same.predecessors]

theorem flowOut_eq (i : Nat) (d : Direction) : g₁.flowOut i d = g₂.flowOut i d := by
  cases d <;> simp [flowOut, same.successors, same.predecessors]

theorem visitQueue_eq (d : Direction) (fuel : Nat) (queue : List Nat) (visited : Array Bool) :
    g₁.visitQueue d fuel queue visited = g₂.visitQueue d fuel queue visited := by
  induction fuel generalizing queue visited with
  | zero => rfl
  | succ fuel ih =>
    cases queue with
    | nil => rfl
    | cons b queue => simp only [visitQueue, visitBlock, same.flowOut_eq, ih]

theorem reachableFrom_eq (s : Nat) (d : Direction) : g₁.reachableFrom s d = g₂.reachableFrom s d := by
  simp only [reachableFrom, same.size, same.flowOut_eq, same.visitQueue_eq]

theorem startOf_eq (d : Direction) : g₁.startOf d = g₂.startOf d := by
  cases d <;> simp [startOf, same.size]

variable [DecidableEq α] (p : Problem α) (reach : Array Bool) (start : Nat)

theorem run_eq (fuel : Nat) (s : EngineState α) :
    EngineState.run g₁ p reach start fuel s = EngineState.run g₂ p reach start fuel s := by
  have visit : ∀ (s : EngineState α) node,
      s.visit g₁ p reach start node = s.visit g₂ p reach start node := by
    intro s node
    simp only [EngineState.visit, same.flowIn_eq, same.flowOut_eq]
  induction fuel generalizing s with
  | zero => rfl
  | succ fuel ih =>
    unfold EngineState.run
    split
    · rfl
    · rw [ih, visit]

/-- The engine gives the same answer on two graphs with the same edges. -/
theorem solveFrom_eq (config : EngineConfig) (seed : Option (Array (Option α))) :
    p.solveFrom g₁ config seed = p.solveFrom g₂ config seed := by
  have fuel : p.fuel g₁ = p.fuel g₂ := by simp only [Problem.fuel, same.size, same.flowOut_eq]
  rw [Problem.solveFrom_eq, Problem.solveFrom_eq, Problem.finalState, Problem.finalState,
    same.run_eq, fuel, same.startOf_eq, same.reachableFrom_eq]
  simp only [Problem.startState, same.size, same.reachableFrom_eq]

end SameEdges

end Cfg

namespace EngineState

variable [DecidableEq α] {g : Cfg} {p : Problem α} {reach : Array Bool} {start : Nat}

theorem run_add (f k : Nat) (s : EngineState α) :
    run g p reach start (f + k) s = run g p reach start k (run g p reach start f s) := by
  induction f generalizing s with
  | zero => simp [run]
  | succ f ih =>
    cases pop : s.work.pop? (s.work.draw s.visits) with
    | none =>
      have empty := Worklist.pop?_eq_none_iff.mp pop
      rw [run_of_queue_nil empty, run_of_queue_nil empty, run_of_queue_nil empty]
    | some taken =>
      obtain ⟨node, w⟩ := taken
      rw [Nat.add_right_comm]
      simp only [run, pop]
      exact ih _

theorem run_eq_of_queue_nil {f f' : Nat} {s : EngineState α}
    (done : (run g p reach start f s).work.queue = [])
    (done' : (run g p reach start f' s).work.queue = []) :
    run g p reach start f s = run g p reach start f' s := by
  rcases Nat.le_total f f' with le | le
  · rw [← Nat.add_sub_cancel' le, run_add, run_of_queue_nil done]
  · rw [← Nat.add_sub_cancel' le, run_add, run_of_queue_nil done']

/-- A state of a run of `p` from `start`, its invariant holding, in which every reached block
sends a value `ok` holds of: from such a state two agreeing problems run the same way. -/
def SendsOk {p : Problem α} (s : EngineState α) (g : Cfg) (fw : p.Framework) (start : Nat)
    (ok : α → Prop) : Prop :=
  s.Inv g p fw start ∧ ∀ q, g.Reaches p.direction start q → ok (s.sent p q)

end EngineState

namespace Problem

/-- Two problems the engine cannot tell apart when it starts at `start` on `g`: the same
direction, initial value and merge, and at every reached block the same transfer of every value
`ok` holds of. `ok` holds of the initial value and is kept by merging and by the transfers of
reached blocks. -/
structure AgreeOn (g : Cfg) (start : Nat) (p₁ p₂ : Problem α) (ok : α → Prop) : Prop where
  direction : p₁.direction = p₂.direction
  init : p₁.init = p₂.init
  merge : p₁.merge = p₂.merge
  ok_init : ok p₁.init
  ok_merge : ∀ xs, (∀ x ∈ xs, ok x) → ok (p₁.merge xs)
  transfer : ∀ n, g.Reaches p₁.direction start n → ∀ x, ok x → p₁.transfer n x = p₂.transfer n x
  ok_transfer : ∀ n, g.Reaches p₁.direction start n → ∀ x, ok x → ok (p₁.transfer n x)

namespace AgreeOn

variable {g : Cfg} {start : Nat} {p₁ p₂ : Problem α} {ok : α → Prop}
  (agree : AgreeOn g start p₁ p₂ ok)
include agree

theorem receives_eq (out : Nat → α) (n : Nat) :
    p₁.receives g start out n = p₂.receives g start out n := by
  unfold receives incoming
  rw [agree.direction, agree.init, agree.merge]

theorem ok_receives {out : Nat → α} (oks : ∀ q, g.Reaches p₁.direction start q → ok (out q))
    (n : Nat) : ok (p₁.receives g start out n) := by
  unfold receives
  split
  · exact agree.ok_init
  · apply agree.ok_merge
    intro x hx
    simp only [incoming, List.mem_map, List.mem_filter, decide_eq_true_eq] at hx
    obtain ⟨q, ⟨-, hq⟩, rfl⟩ := hx
    exact oks q hq

theorem sent_eq (s : EngineState α) : s.sent p₁ = s.sent p₂ := by
  funext q
  simp only [EngineState.sent, agree.init]

variable [DecidableEq α] {s t : EngineState α} {node drawn : Nat} {w : Worklist}

/-- A visit to a reached block, from a state where every reached block sends a value `ok` holds
of, gives the same state for either problem. -/
theorem visit_eq
    (sends : ∀ q, g.Reaches p₁.direction start q → t.flowOut[q]?.join = some (t.sent p₁ q))
    (oks : ∀ q, g.Reaches p₁.direction start q → ok (t.sent p₁ q))
    (reach : g.Reaches p₁.direction start node) :
    t.visit g p₁ (g.reachableFrom start p₁.direction) start node =
      t.visit g p₂ (g.reachableFrom start p₁.direction) start node := by
  have sends₂ : ∀ q, g.Reaches p₂.direction start q → t.flowOut[q]?.join = some (t.sent p₂ q) := by
    rw [← agree.direction, ← agree.sent_eq]
    exact sends
  -- both visits receive the same value and, the block being reached, send the same value
  have input : p₁.receives g start (t.sent p₁) node = p₂.receives g start (t.sent p₂) node := by
    rw [← agree.sent_eq, agree.receives_eq]
  have output : p₁.transfer node (p₁.receives g start (t.sent p₁) node) =
      p₂.transfer node (p₂.receives g start (t.sent p₂) node) := by
    rw [← input]
    exact agree.transfer node reach _ (agree.ok_receives oks node)
  by_cases same : t.flowOut[node]?.join =
      some (p₁.transfer node (p₁.receives g start (t.sent p₁) node))
  · have rhs := EngineState.visit_of_same sends₂ (output ▸ same)
    rw [← agree.direction] at rhs
    rw [EngineState.visit_of_same sends same, rhs, input]
  · have rhs := EngineState.visit_of_changed sends₂ (by rw [← output]; exact same)
    rw [← agree.direction] at rhs
    rw [EngineState.visit_of_changed sends same, rhs, output, input]

variable {fw : p₁.Framework}

theorem steady_visit (hg : g.WellFormed) (steady : s.SendsOk g fw start ok)
    (pop : s.work.pop? drawn = some (node, w)) :
    (({ s with work := w, visits := s.visits + 1 } : EngineState α).visit g p₁
      (g.reachableFrom start p₁.direction) start node).SendsOk g fw start ok := by
  refine ⟨steady.1.step hg pop, fun q hq => ?_⟩
  rw [steady.1.sent_visit pop q]
  split
  · exact agree.ok_transfer node (steady.1.reaches_of_pop pop) _ (agree.ok_receives steady.2 node)
  · exact steady.2 q hq

theorem run_eq (hg : g.WellFormed) :
    ∀ (fuel : Nat) {s : EngineState α}, s.SendsOk g fw start ok →
      EngineState.run g p₁ (g.reachableFrom start p₁.direction) start fuel s =
        EngineState.run g p₂ (g.reachableFrom start p₁.direction) start fuel s
  | 0, _, _ => rfl
  | fuel + 1, s, steady => by
    cases pop : s.work.pop? (s.work.draw s.visits) with
    | none => simp only [EngineState.run, pop]
    | some taken =>
      obtain ⟨node, w⟩ := taken
      simp only [EngineState.run, pop]
      rw [run_eq hg fuel (agree.steady_visit hg steady pop),
        agree.visit_eq (steady.1.sends_taken w _) steady.2 (steady.1.reaches_of_pop pop)]

end AgreeOn

/-- Two problems that agree on the blocks reached from the start of a well-formed graph, both
monotone frameworks, give the same answer under every configuration. -/
theorem AgreeOn.solve_eq [DecidableEq α] {g : Cfg} {p₁ p₂ : Problem α} {ok : α → Prop}
    (agree : AgreeOn g (g.startOf p₁.direction) p₁ p₂ ok) (fw₁ : p₁.Framework)
    (fw₂ : p₂.Framework) (hg : g.WellFormed) (config : EngineConfig) :
    p₁.solve g config = p₂.solve g config := by
  have startState : p₂.startState g config none (g.startOf p₂.direction) =
      p₁.startState g config none (g.startOf p₁.direction) := by
    simp only [startState, seedOf, agree.direction, agree.init]
  have steady : (p₁.startState g config none (g.startOf p₁.direction)).SendsOk g fw₁
      (g.startOf p₁.direction) ok :=
    ⟨startState_inv fw₁ (fw₁.seeds_init g _), fun q hq => by
      rw [sent_startState hq]
      exact agree.ok_init⟩
  -- both runs stop with nothing waiting, and for any fuel they are the same run
  have done₁ : (p₁.finalState g config none).work.queue = [] :=
    finalState_queue fw₁ hg (fw₁.seeds_init g _)
  have done₂ : (p₂.finalState g config none).work.queue = [] :=
    finalState_queue fw₂ hg (fw₂.seeds_init g _)
  rw [finalState] at done₁ done₂
  rw [startState, ← agree.direction, ← agree.run_eq hg _ steady] at done₂
  rw [solve, solve, solveFrom_eq, solveFrom_eq, finalState, finalState, startState,
    ← agree.direction, ← agree.run_eq hg _ steady, EngineState.run_eq_of_queue_nil done₁ done₂]
  simp only [tablesOf, agree.direction]

end Problem

end BrilFlow

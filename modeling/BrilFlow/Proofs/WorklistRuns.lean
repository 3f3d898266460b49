import BrilFlow.Proofs.Solve

/-! The worklist along a run of the engine: every worklist a run holds is built from the empty one,
and every worklist so built keeps its entries. -/
namespace BrilFlow

namespace Worklist

/-- The worklists built for `size` blocks under `config`: the empty one, and whatever adding a
block in range or taking the next block leaves. Being closed under additions, it holds the
worklists between the additions of one visit as well as those between visits. -/
inductive Built (size : Nat) (config : EngineConfig) : Worklist → Prop
  | empty : Built size config (empty size config)
  | push {w : Worklist} {n : Nat} : Built size config w → n < size → Built size config (w.push n)
  | pop {w w' : Worklist} {n drawn : Nat} : Built size config w → w.pop? drawn = some (n, w') →
      Built size config w'

/-- A worklist that keeps its entries: an addition is skipped exactly when deduplicating and the
block is still queued, and appends it otherwise; taking follows the order and removes exactly
the entry it returns, and fails only on an empty queue; with deduplication no block is queued
twice and the waiting marks are exactly the queued blocks. -/
structure Faithful (w : Worklist) : Prop where
  push : ∀ n, (w.push n).queue =
    if w.config.dedup = true ∧ n ∈ w.queue then w.queue else w.queue ++ [n]
  pop : ∀ drawn n w', w.pop? drawn = some (n, w') → w.Takes n w' ∧ (n :: w'.queue).Perm w.queue
  pop_none : ∀ drawn, w.pop? drawn = none ↔ w.queue = []
  once : w.config.dedup = true → w.queue.Nodup
  marks : w.config.dedup = true → ∀ n, w.waiting[n]?.getD false = true ↔ n ∈ w.queue

variable {size : Nat} {config : EngineConfig} {w : Worklist}

theorem Built.config_eq (built : w.Built size config) : w.config = config := by
  induction built with
  | empty => rfl
  | push _ _ ih => rw [push_config, ih]
  | pop _ taken ih => rw [(pop?_takes taken).2.2, ih]

theorem Built.valid (built : w.Built size config) : w.Valid size := by
  induction built with
  | empty => exact valid_empty size config
  | push _ lt ih => exact push_valid ih lt
  | pop _ taken ih => exact pop?_valid ih taken

theorem Valid.push_queue (valid : w.Valid size) (n : Nat) : (w.push n).queue =
    if w.config.dedup = true ∧ n ∈ w.queue then w.queue else w.queue ++ [n] := by
  rw [Worklist.push_queue]
  by_cases dedup : w.config.dedup = true
  · have marked := valid.marks dedup n
    by_cases queued : n ∈ w.queue
    · simp [dedup, marked.mpr queued, queued]
    · have unmarked : w.waiting[n]?.getD false = false := by
        cases h : w.waiting[n]?.getD false
        · rfl
        · exact absurd (marked.mp h) queued
      simp [dedup, unmarked, queued]
  · simp [dedup]

theorem Valid.faithful (valid : w.Valid size) : w.Faithful where
  push := valid.push_queue
  pop := fun _ _ _ taken => ⟨(pop?_takes taken).1, (pop?_takes taken).1.perm⟩
  pop_none := fun _ => pop?_eq_none_iff
  once := valid.nodup
  marks := valid.marks

theorem Built.pushWhere {p : Nat → Bool} (inRange : ∀ n, p n = true → n < size) :
    ∀ (js : List Nat) {w : Worklist}, w.Built size config →
      (js.foldl (fun w n => if p n then w.push n else w) w).Built size config
  | [], _, built => built
  | j :: js, w, built => by
    simp only [List.foldl_cons]
    split
    · next pj => exact Built.pushWhere inRange js (built.push (inRange j pj))
    · exact Built.pushWhere inRange js built

end Worklist

namespace EngineState

variable {α : Type} [DecidableEq α] {g : Cfg} {p : Problem α} {config : EngineConfig}
  {start : Nat}

theorem visit_work (reach : Array Bool) (s : EngineState α) (node : Nat) :
    (s.visit g p reach start node).work = s.work ∨
      (s.visit g p reach start node).work = (g.flowOut node p.direction).foldl
        (fun w n => if reach[n]?.getD false = true then w.push n else w) s.work := by
  -- the received value is split on too; only whether the sent value changes decides the worklist
  simp only [visit]
  split_ifs <;> simp

/-- One step of a run, taking a block and visiting it, keeps the worklist built. -/
theorem built_step {s : EngineState α} {node drawn : Nat} {w : Worklist}
    (built : s.work.Built g.size config) (taken : s.work.pop? drawn = some (node, w)) :
    (({ s with work := w, visits := s.visits + 1 } : EngineState α).visit g p
      (g.reachableFrom start p.direction) start node).work.Built g.size config := by
  have popped : w.Built g.size config := built.pop taken
  rcases visit_work (g.reachableFrom start p.direction) { s with work := w, visits := s.visits + 1 }
    node with same | pushed
  · rw [same]
    exact popped
  · rw [pushed]
    exact popped.pushWhere (fun n h => (Cfg.reachableFrom_iff.mp h).lt_size) _

end EngineState

namespace Problem

variable {α : Type}

theorem startState_built (g : Cfg) (p : Problem α) (config : EngineConfig)
    (seed : Option (Array (Option α))) (start : Nat) :
    (p.startState g config seed start).work.Built g.size config :=
  Worklist.Built.pushWhere (fun _ h => (Cfg.reachableFrom_iff.mp h).lt_size) _ .empty

/-- Every worklist of every run of the engine, under every configuration, keeps its entries: it
is built from the empty worklist by additions of blocks in range and by taking blocks, and every
worklist so built keeps the configuration and is faithful. -/
theorem worklist_faithful_along_runs [DecidableEq α] (g : Cfg) (p : Problem α)
    (config : EngineConfig) (seed : Option (Array (Option α))) (start fuel : Nat) :
    (EngineState.run g p (g.reachableFrom start p.direction) start fuel
        (p.startState g config seed start)).work.Built g.size config ∧
      ∀ w : Worklist, w.Built g.size config → w.config = config ∧ w.Faithful := by
  refine ⟨?_, fun w built => ⟨built.config_eq, built.valid.faithful⟩⟩
  -- the run is induction over its steps, each a take followed by a visit
  exact EngineState.run_induction g p _ start (·.work.Built g.size config)
    (fun _ _ _ _ built taken => EngineState.built_step built taken) fuel _
    (startState_built g p config seed start)

end Problem
end BrilFlow

import Mathlib.Algebra.BigOperators.Group.Finset.Basic
import BrilFlow.Proofs.Equations
import BrilFlow.Proofs.WorklistFacts
import BrilFlow.Analysis.Engine

/-! The engine's loop as chaotic iteration: in any worklist order every state keeps what reachable
blocks send below what they would send next, and a potential that falls with every step empties
the worklist. -/
namespace BrilFlow

variable {α : Type} [DecidableEq α]

namespace EngineState

/-- What block `q` sends in a state, the initial value where nothing is recorded. -/
def sent (p : Problem α) (s : EngineState α) (q : Nat) : α := (s.flowOut[q]?.join).getD p.init

section Visit

variable {g : Cfg} {p : Problem α} {start : Nat}

omit [DecidableEq α] in
theorem incoming_eq {s : EngineState α}
    (sends : ∀ q, g.Reaches p.direction start q → s.flowOut[q]?.join = some (s.sent p q))
    (js : List Nat) :
    js.filterMap (fun q => if (g.reachableFrom start p.direction)[q]?.getD false = true
      then s.flowOut[q]?.join else none) =
      (js.filter fun q => g.Reaches p.direction start q).map (s.sent p) := by
  induction js with
  | nil => rfl
  | cons q js ih =>
    by_cases reach : g.Reaches p.direction start q
    · simp [Cfg.reachableFrom_iff.mpr reach, sends q reach, reach, ih]
    · have : ¬(g.reachableFrom start p.direction)[q]?.getD false = true :=
        fun h => reach (Cfg.reachableFrom_iff.mp h)
      simp [this, reach, ih]

theorem visit_of_same {s : EngineState α} {node : Nat}
    (sends : ∀ q, g.Reaches p.direction start q → s.flowOut[q]?.join = some (s.sent p q))
    (same : s.flowOut[node]?.join =
      some (p.transfer node (p.receives g start (s.sent p) node))) :
    s.visit g p (g.reachableFrom start p.direction) start node =
      { s with
        flowIn := s.flowIn.setIfInBounds node (some (p.receives g start (s.sent p) node)) } := by
  unfold visit
  simp only [incoming_eq sends, List.isEmpty_iff]
  rw [if_pos (by rw [same]; rfl)]
  rfl

/-- A visit that changes what a block sends records it and queues the reachable blocks it flows
into. -/
theorem visit_of_changed {s : EngineState α} {node : Nat}
    (sends : ∀ q, g.Reaches p.direction start q → s.flowOut[q]?.join = some (s.sent p q))
    (changed : s.flowOut[node]?.join ≠
      some (p.transfer node (p.receives g start (s.sent p) node))) :
    s.visit g p (g.reachableFrom start p.direction) start node =
      { s with
        flowIn := s.flowIn.setIfInBounds node (some (p.receives g start (s.sent p) node))
        flowOut := s.flowOut.setIfInBounds node
          (some (p.transfer node (p.receives g start (s.sent p) node)))
        work := (g.flowOut node p.direction).foldl (fun w n =>
          if (g.reachableFrom start p.direction)[n]?.getD false = true then w.push n else w)
          s.work } := by
  unfold visit
  simp only [incoming_eq sends, List.isEmpty_iff]
  rw [if_neg (by rw [Problem.receives] at changed; exact changed)]
  rfl

end Visit

omit [DecidableEq α] in
theorem sent_of_set (p : Problem α) {s s' : EngineState α} {node : Nat} {v : α}
    (set : s'.flowOut = s.flowOut.setIfInBounds node (some v)) (lt : node < s.flowOut.size)
    (q : Nat) : s'.sent p q = if q = node then v else s.sent p q := by
  simp only [sent, set, Array.getElem?_setIfInBounds, lt, if_true]
  by_cases same : node = q
  · subst same; simp
  · simp [same, Ne.symm same]

omit [DecidableEq α] in
theorem getElem?_join_set {a : Array (Option α)} {node q : Nat} {v : α} (lt : node < a.size) :
    (a.setIfInBounds node (some v))[q]?.join = if q = node then some v else a[q]?.join := by
  simp only [Array.getElem?_setIfInBounds, lt, if_true]
  by_cases same : node = q
  · subst same; simp
  · simp [same, Ne.symm same]

/-- What holds of the engine's state at every step of a run from `start`: sizes and worklist in
order, values exactly for the reachable blocks, canonical and bounded, each at most what its
block would send next, and every reachable block that is not waiting settled. -/
structure Inv (g : Cfg) (p : Problem α) (fw : p.Framework) (start : Nat) (s : EngineState α) :
    Prop where
  in_size : s.flowIn.size = g.size
  out_size : s.flowOut.size = g.size
  valid : s.work.Valid g.size
  queued : ∀ n ∈ s.work.queue, g.Reaches p.direction start n
  sends : ∀ n, g.Reaches p.direction start n → s.flowOut[n]?.join = some (s.sent p n)
  silent : ∀ n, ¬g.Reaches p.direction start n →
    s.flowOut[n]?.join = none ∧ s.flowIn[n]?.join = none
  canon : ∀ n, g.Reaches p.direction start n → fw.canon (s.sent p n)
  bounded : ∀ n, g.Reaches p.direction start n → fw.bounded (s.sent p n)
  ascending : ∀ n, g.Reaches p.direction start n →
    fw.le (s.sent p n) (p.transfer n (p.receives g start (s.sent p) n))
  settled : ∀ n, g.Reaches p.direction start n → n ∉ s.work.queue →
    s.sent p n = p.transfer n (p.receives g start (s.sent p) n) ∧
      s.flowIn[n]?.join = some (p.receives g start (s.sent p) n)

section Step

variable {g : Cfg} {p : Problem α} {fw : p.Framework} {start : Nat} {s : EngineState α} {drawn : Nat}
  {node : Nat} {w : Worklist}

omit [DecidableEq α] in
theorem Inv.reaches_of_pop (inv : s.Inv g p fw start) (pop : s.work.pop? drawn = some (node, w)) :
    g.Reaches p.direction start node :=
  inv.queued node ((Worklist.pop?_some pop).1.subset List.mem_cons_self)

omit [DecidableEq α] in
theorem Inv.sends_taken (inv : s.Inv g p fw start) (w : Worklist) (v : Nat) :
    ∀ q, g.Reaches p.direction start q →
      ({ s with work := w, visits := v } : EngineState α).flowOut[q]?.join =
        some (({ s with work := w, visits := v } : EngineState α).sent p q) :=
  inv.sends

theorem Inv.visit_same (inv : s.Inv g p fw start) (pop : s.work.pop? drawn = some (node, w))
    (same : s.flowOut[node]?.join =
      some (p.transfer node (p.receives g start (s.sent p) node))) :
    (({ s with work := w, visits := s.visits + 1 } : EngineState α).visit g p
      (g.reachableFrom start p.direction) start node).Inv g p fw start := by
  obtain ⟨perm, -, -⟩ := Worklist.pop?_some pop
  have reach : g.Reaches p.direction start node := inv.reaches_of_pop pop
  have lt : node < s.flowIn.size := inv.in_size ▸ reach.lt_size
  rw [visit_of_same (inv.sends_taken w _) same]
  refine ⟨by simp [inv.in_size], inv.out_size, Worklist.pop?_valid inv.valid pop,
    fun n hn => inv.queued n (perm.subset (List.mem_cons_of_mem _ hn)), inv.sends,
    fun n hn => ?_, inv.canon, inv.bounded, inv.ascending, fun n hn waiting => ?_⟩
  · refine ⟨(inv.silent n hn).1, ?_⟩
    simp only [getElem?_join_set lt]
    rw [if_neg (by rintro rfl; exact hn reach)]
    exact (inv.silent n hn).2
  · simp only [getElem?_join_set lt]
    by_cases here : n = node
    · subst here
      rw [inv.sends n hn] at same
      exact ⟨Option.some.inj same, if_pos rfl⟩
    · rw [if_neg here]
      exact inv.settled n hn fun h => waiting <| by
        rcases List.mem_cons.mp (perm.mem_iff.mpr h) with h | h
        · exact absurd h here
        · exact h

omit [DecidableEq α] in
/-- The state after a visit that changes what `node` sends keeps the invariant: the block only
rises, and every reachable block it flows into is waiting again. -/
theorem Inv.of_change (hg : g.WellFormed) (inv : s.Inv g p fw start)
    (pop : s.work.pop? drawn = some (node, w)) {t : EngineState α}
    (tIn : t.flowIn = s.flowIn.setIfInBounds node (some (p.receives g start (s.sent p) node)))
    (tOut : t.flowOut = s.flowOut.setIfInBounds node
      (some (p.transfer node (p.receives g start (s.sent p) node))))
    (tWork : t.work = (g.flowOut node p.direction).foldl (fun w n =>
      if (g.reachableFrom start p.direction)[n]?.getD false = true then w.push n else w) w) :
    t.Inv g p fw start := by
  obtain ⟨perm, -, -⟩ := Worklist.pop?_some pop
  have reach : g.Reaches p.direction start node := inv.reaches_of_pop pop
  have ltIn : node < s.flowIn.size := inv.in_size ▸ reach.lt_size
  have ltOut : node < s.flowOut.size := inv.out_size ▸ reach.lt_size
  obtain ⟨valid, -, mem, -⟩ := Worklist.pushWhere_valid
    (fun n h => (Cfg.reachableFrom_iff.mp h).lt_size) (g.flowOut node p.direction)
    (Worklist.pop?_valid inv.valid pop)
  rw [← tWork] at valid mem
  have sent' := sent_of_set p tOut ltOut
  have rises : ∀ q, g.Reaches p.direction start q → fw.le (s.sent p q) (t.sent p q) := by
    intro q hq
    rw [sent' q]
    split
    · next here => subst here; exact inv.ascending q hq
    · exact fw.le_refl _
  have canon : ∀ q, g.Reaches p.direction start q → fw.canon (t.sent p q) := by
    intro q hq
    rw [sent' q]
    split
    · exact fw.canon_step _ node
    · exact inv.canon q hq
  -- a reachable block that is not waiting is not a flow-out neighbour of `node`, so what it
  -- receives is unchanged
  have unmoved : ∀ m, g.Reaches p.direction start m → m ∉ t.work.queue →
      p.receives g start (t.sent p) m = p.receives g start (s.sent p) m := by
    intro m hm waiting
    apply Problem.receives_congr
    intro q hq _
    rw [sent' q, if_neg]
    rintro rfl
    exact waiting ((mem m).mpr (.inr ⟨hg.mem_flowIn.mp hq, Cfg.reachableFrom_iff.mpr hm⟩))
  refine ⟨by simp [tIn, inv.in_size], by simp [tOut, inv.out_size], valid, fun m hm => ?_,
    fun q hq => ?_, fun q hq => ?_, canon, fun q hq => ?_, fun q hq => ?_, fun m hm waiting => ?_⟩
  · rcases (mem m).mp hm with h | ⟨-, h⟩
    · exact inv.queued m (perm.subset (List.mem_cons_of_mem _ h))
    · exact Cfg.reachableFrom_iff.mp h
  · rw [tOut, getElem?_join_set ltOut, sent' q]
    split
    · rfl
    · exact inv.sends q hq
  · have other : q ≠ node := by rintro rfl; exact hq reach
    rw [tOut, tIn, getElem?_join_set ltOut, getElem?_join_set ltIn, if_neg other, if_neg other]
    exact inv.silent q hq
  · rw [sent' q]
    split
    · exact fw.bounded_transfer node (fw.bounded_receives inv.bounded node)
    · exact inv.bounded q hq
  · have next := fw.step_mono inv.canon canon rises q
    rw [sent' q]
    split
    · next here => subst here; exact next
    · exact fw.le_trans (inv.ascending q hq) next
  · rw [unmoved m hm waiting, tIn, getElem?_join_set ltIn, sent' m]
    by_cases here : m = node
    · subst here
      simp
    · rw [if_neg here, if_neg here]
      exact inv.settled m hm fun h => by
        rcases List.mem_cons.mp (perm.mem_iff.mpr h) with h | h
        · exact here h
        · exact waiting ((mem m).mpr (.inl h))

theorem Inv.visit_changed (hg : g.WellFormed) (inv : s.Inv g p fw start)
    (pop : s.work.pop? drawn = some (node, w))
    (changed : s.flowOut[node]?.join ≠
      some (p.transfer node (p.receives g start (s.sent p) node))) :
    (({ s with work := w, visits := s.visits + 1 } : EngineState α).visit g p
      (g.reachableFrom start p.direction) start node).Inv g p fw start := by
  rw [visit_of_changed (inv.sends_taken w _) changed]
  exact inv.of_change hg pop rfl rfl rfl

theorem Inv.step (hg : g.WellFormed) (inv : s.Inv g p fw start)
    (pop : s.work.pop? drawn = some (node, w)) :
    (({ s with work := w, visits := s.visits + 1 } : EngineState α).visit g p
      (g.reachableFrom start p.direction) start node).Inv g p fw start := by
  by_cases same : s.flowOut[node]?.join =
      some (p.transfer node (p.receives g start (s.sent p) node))
  · exact inv.visit_same pop same
  · exact inv.visit_changed hg pop same

/-- After a visit, the visited block sends what it would send next and the others are as
before, whether or not anything changed. -/
theorem Inv.sent_visit (inv : s.Inv g p fw start) (pop : s.work.pop? drawn = some (node, w))
    (q : Nat) :
    (({ s with work := w, visits := s.visits + 1 } : EngineState α).visit g p
      (g.reachableFrom start p.direction) start node).sent p q =
      if q = node then p.transfer node (p.receives g start (s.sent p) node) else s.sent p q := by
  have reach : g.Reaches p.direction start node := inv.reaches_of_pop pop
  by_cases same : s.flowOut[node]?.join =
      some (p.transfer node (p.receives g start (s.sent p) node))
  · rw [visit_of_same (inv.sends_taken w _) same]
    split
    · next here =>
      subst here
      rw [inv.sends q reach] at same
      exact Option.some.inj same
    · rfl
  · rw [visit_of_changed (inv.sends_taken w _) same]
    exact sent_of_set p rfl (inv.out_size ▸ reach.lt_size) q

end Step

/-- How far the reachable blocks can still rise, each weighted by its number of flow-out
neighbours. -/
def budget {p : Problem α} (fw : p.Framework) (g : Cfg) (start : Nat) (s : EngineState α) : Nat :=
  ∑ k ∈ g.reachableSet p.direction start,
    (fw.height - fw.rank (s.sent p k)) * (g.flowOut k p.direction).length

/-- The waiting entries plus the budget: it falls with every step of a run. -/
def potential {p : Problem α} (fw : p.Framework) (g : Cfg) (start : Nat) (s : EngineState α) :
    Nat :=
  s.work.queue.length + budget fw g start s

section Potential

variable {g : Cfg} {p : Problem α} {fw : p.Framework} {start : Nat} {s : EngineState α} {drawn : Nat}
  {node : Nat} {w : Worklist}

omit [DecidableEq α] in
theorem budget_update {t : EngineState α} (reach : g.Reaches p.direction start node)
    (others : ∀ k, k ≠ node → t.sent p k = s.sent p k) :
    budget fw g start t +
        (fw.height - fw.rank (s.sent p node)) * (g.flowOut node p.direction).length =
      budget fw g start s +
        (fw.height - fw.rank (t.sent p node)) * (g.flowOut node p.direction).length := by
  have mem : node ∈ g.reachableSet p.direction start := Cfg.mem_reachableSet.mpr reach
  unfold budget
  rw [← Finset.add_sum_erase _ _ mem, ← Finset.add_sum_erase _ _ mem,
    Finset.sum_congr rfl fun k hk => by rw [others k (Finset.ne_of_mem_erase hk)]]
  omega

theorem Inv.queue_visit (inv : s.Inv g p fw start) (pop : s.work.pop? drawn = some (node, w)) :
    (({ s with work := w, visits := s.visits + 1 } : EngineState α).visit g p
      (g.reachableFrom start p.direction) start node).work.queue.length ≤
      w.queue.length + if s.sent p node = p.transfer node (p.receives g start (s.sent p) node)
        then 0 else (g.flowOut node p.direction).length := by
  have reach : g.Reaches p.direction start node := inv.reaches_of_pop pop
  by_cases same : s.flowOut[node]?.join =
      some (p.transfer node (p.receives g start (s.sent p) node))
  · rw [visit_of_same (inv.sends_taken w _) same]
    simp
  · rw [visit_of_changed (inv.sends_taken w _) same,
      if_neg fun h => same (by rw [inv.sends node reach, h])]
    exact (Worklist.pushWhere_valid (fun n h => (Cfg.reachableFrom_iff.mp h).lt_size) _
      (Worklist.pop?_valid inv.valid pop)).2.2.2

/-- Every step lowers the potential: a block that changes rises in rank, which pays for the
neighbours it queues. -/
theorem Inv.potential_step (inv : s.Inv g p fw start) (pop : s.work.pop? drawn = some (node, w)) :
    potential fw g start (({ s with work := w, visits := s.visits + 1 } : EngineState α).visit
      g p (g.reachableFrom start p.direction) start node) + 1 ≤ potential fw g start s := by
  have reach : g.Reaches p.direction start node := inv.reaches_of_pop pop
  have popped : w.queue.length + 1 = s.work.queue.length := Worklist.length_pop? pop
  have queue := inv.queue_visit pop
  have sentT := inv.sent_visit pop
  generalize (({ s with work := w, visits := s.visits + 1 } : EngineState α).visit g p
    (g.reachableFrom start p.direction) start node) = t at queue sentT ⊢
  have update : budget fw g start t +
      (fw.height - fw.rank (s.sent p node)) * (g.flowOut node p.direction).length =
      budget fw g start s +
        (fw.height - fw.rank (t.sent p node)) * (g.flowOut node p.direction).length :=
    budget_update reach fun k hk => by rw [sentT k, if_neg hk]
  rw [sentT node, if_pos rfl] at update
  unfold potential
  split at queue
  · next same => rw [← same] at update; omega
  · next changed =>
    -- the block rises strictly, within the height
    have lt := fw.rank_lt (inv.canon node reach) (fw.canon_step _ node) (inv.bounded node reach)
      (fw.bounded_transfer node (fw.bounded_receives inv.bounded node))
      (inv.ascending node reach) changed
    have le := fw.rank_le (fw.canon_step (s.sent p) node)
      (fw.bounded_transfer node (fw.bounded_receives inv.bounded node))
    have pays : (fw.height - fw.rank (p.transfer node (p.receives g start (s.sent p) node))) *
        (g.flowOut node p.direction).length + (g.flowOut node p.direction).length ≤
        (fw.height - fw.rank (s.sent p node)) * (g.flowOut node p.direction).length := by
      rw [← Nat.succ_mul]
      exact Nat.mul_le_mul_right _ (by omega)
    omega

end Potential

theorem run_induction (g : Cfg) (p : Problem α) (reach : Array Bool) (start : Nat)
    (P : EngineState α → Prop)
    (step : ∀ s drawn node w, P s → s.work.pop? drawn = some (node, w) →
      P (({ s with work := w, visits := s.visits + 1 } : EngineState α).visit g p reach start
        node)) :
    ∀ fuel s, P s → P (run g p reach start fuel s)
  | 0, _, h => h
  | fuel + 1, s, h => by
    unfold run
    split
    · exact h
    · next node w pop => exact run_induction g p reach start P step fuel _ (step s _ node w h pop)

theorem run_of_queue_nil {g : Cfg} {p : Problem α} {reach : Array Bool} {start : Nat}
    {s : EngineState α} (empty : s.work.queue = []) : ∀ fuel, run g p reach start fuel s = s
  | 0 => rfl
  | _ + 1 => by
    unfold run
    rw [Worklist.pop?_eq_none_iff.mpr empty]

@[simp] theorem visits_visit (g : Cfg) (p : Problem α) (reach : Array Bool) (start : Nat)
    (s : EngineState α) (node : Nat) : (s.visit g p reach start node).visits = s.visits := by
  simp only [visit]
  split_ifs <;> rfl

section Run

variable {g : Cfg} {p : Problem α} {fw : p.Framework} {start : Nat}

theorem Inv.after_run (hg : g.WellFormed) {s : EngineState α} (inv : s.Inv g p fw start)
    (fuel : Nat) :
    (run g p (g.reachableFrom start p.direction) start fuel s).Inv g p fw start :=
  run_induction g p _ start (·.Inv g p fw start) (fun _ _ _ _ inv pop => inv.step hg pop) fuel s inv

theorem Inv.visits_run (hg : g.WellFormed) :
    ∀ (fuel : Nat) {s : EngineState α}, s.Inv g p fw start →
      (run g p (g.reachableFrom start p.direction) start fuel s).visits +
        potential fw g start (run g p (g.reachableFrom start p.direction) start fuel s) ≤
        s.visits + potential fw g start s
  | 0, _, _ => le_rfl
  | fuel + 1, s, inv => by
    unfold run
    split
    · exact le_rfl
    · next node w pop =>
      have next := Inv.visits_run hg fuel (inv.step hg pop)
      have falls := inv.potential_step pop
      simp only [visits_visit] at next
      omega

/-- With more fuel than potential, the run stops on an empty worklist. -/
theorem Inv.run_queue_nil (hg : g.WellFormed) :
    ∀ {fuel : Nat} {s : EngineState α}, s.Inv g p fw start → potential fw g start s < fuel →
      (run g p (g.reachableFrom start p.direction) start fuel s).work.queue = []
  | 0, _, _, lt => absurd lt (Nat.not_lt_zero _)
  | fuel + 1, s, inv, lt => by
    unfold run
    split
    · next none => exact Worklist.pop?_eq_none_iff.mp none
    · next node w pop =>
      have falls := inv.potential_step pop
      exact Inv.run_queue_nil hg (inv.step hg pop) (by omega)

end Run

end EngineState

end BrilFlow

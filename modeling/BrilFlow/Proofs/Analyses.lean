import BrilFlow.Proofs.ReachingLive
import BrilFlow.Proofs.ConstLattice
import BrilFlow.Analysis.Report

/-! What the engine computes for the five analyses: under every configuration the same tables,
holding the extremal solution of the equations, which for the four set analyses is the meet over
all paths; the loop stops within its bound, and reseeding changes nothing. -/
namespace BrilFlow

variable {α : Type} [DecidableEq α]

namespace Problem

/-- The engine's answer under every configuration: the same tables for all, holding on the
blocks reachable from the start the least solution of the equations in `le`, and nothing
elsewhere. -/
def SolvesLeast (g : Cfg) (p : Problem α) (le : α → α → Prop) : Prop :=
  (∀ c c' : EngineConfig, (p.solve g c).input = (p.solve g c').input ∧
    (p.solve g c).output = (p.solve g c').output) ∧
  ∀ config : EngineConfig, ∃ IN OUT, p.Solves g (g.startOf p.direction) IN OUT ∧
    (p.solve g config).Holds g p (g.startOf p.direction) IN OUT ∧
    ∀ IN' OUT', p.Solves g (g.startOf p.direction) IN' OUT' →
      ∀ n, g.Reaches p.direction (g.startOf p.direction) n → le (IN n) (IN' n) ∧ le (OUT n) (OUT' n)

/-- Under every configuration the engine's loop stops on an empty worklist, having taken at most
one block per reachable block plus, for each, its number of flow-out neighbours per change of
value the problem's height allows. -/
def TerminatesWithin (g : Cfg) (p : Problem α) : Prop :=
  ∀ config : EngineConfig, (p.finalState g config none).work.queue = [] ∧
    (p.solve g config).visits ≤ (g.reachableSet p.direction (g.startOf p.direction)).card +
      ∑ k ∈ g.reachableSet p.direction (g.startOf p.direction),
        p.height * (g.flowOut k p.direction).length

/-- Seeded with an answer it found, under any configuration, the engine returns the same tables
and takes each reachable block exactly once. -/
def ReseedStable (g : Cfg) (p : Problem α) : Prop :=
  ∀ c c' : EngineConfig,
    (p.solveSeeded g c' (p.solve g c)).input = (p.solve g c).input ∧
    (p.solveSeeded g c' (p.solve g c)).output = (p.solve g c).output ∧
    (p.solveSeeded g c' (p.solve g c)).visits =
      (g.reachableSet p.direction (g.startOf p.direction)).card

variable {g : Cfg} {p : Problem α}

theorem Framework.solvesLeast (hg : g.WellFormed) (fw : p.Framework) : p.SolvesLeast g fw.le :=
  ⟨solve_tables_eq fw hg, solve_holds_least fw hg⟩

theorem Framework.terminatesWithin (hg : g.WellFormed) (fw : p.Framework) :
    p.TerminatesWithin g :=
  solve_terminates fw hg

theorem Framework.reseedStable (hg : g.WellFormed) (fw : p.Framework) : p.ReseedStable g :=
  solveSeeded_solve fw hg

end Problem

/-- For every graph of a function, each of the five analyses returns the same tables under every
configuration, holding the extremal solution of its equations. -/
theorem analyses_solve_extremal (f : Function) (g : Cfg) (h : Cfg.ofFunction f = .ok g) :
    (definedProblem g).SolvesLeast g (· ⊆ ·) ∧
    (liveProblem g).SolvesLeast g (· ⊆ ·) ∧
    (constantsProblem g).SolvesLeast g ConstEnv.le ∧
    (reachingProblem g).SolvesLeast g (· ⊆ ·) ∧
    (availableProblem g).SolvesLeast g (fun x y => y ⊆ x) := by
  have hg := Cfg.ofFunction_wellFormed h
  exact ⟨(definedFramework g).solvesLeast hg, (liveFramework g).solvesLeast hg,
    (constantsFramework g).solvesLeast hg, (reachingFramework g).solvesLeast hg,
    (availableFramework g).solvesLeast hg⟩

theorem analyses_solve_extremal_loop :
    Cfg.ofFunction loopFunction = .ok loopGraph ∧
    (definedProblem loopGraph).SolvesLeast loopGraph (· ⊆ ·) ∧
    (liveProblem loopGraph).SolvesLeast loopGraph (· ⊆ ·) ∧
    (constantsProblem loopGraph).SolvesLeast loopGraph ConstEnv.le ∧
    (reachingProblem loopGraph).SolvesLeast loopGraph (· ⊆ ·) ∧
    (availableProblem loopGraph).SolvesLeast loopGraph (fun x y => y ⊆ x) :=
  ⟨ofFunction_loopFunction,
    analyses_solve_extremal loopFunction loopGraph ofFunction_loopFunction⟩

/-- For every graph of a function, each of the four gen/kill analyses returns on every reachable
block, under every configuration, the meet over all paths from the start: the union of what the
paths carry for defined and live variables and reaching definitions, their intersection for
available expressions. Read through the blocks' writes and reads, a site reaches a block along a
path from its last write with no write of its variable after it, and a variable is live out of a
block along a path to a read before any write with no write in between. -/
theorem analyses_meet_over_paths (f : Function) (g : Cfg) (h : Cfg.ofFunction f = .ok g) :
    (definedProblem g).UnionOverPaths g ∧ (liveProblem g).UnionOverPaths g ∧
    (reachingProblem g).UnionOverPaths g ∧ (availableProblem g).InterOverPaths g ∧
    g.ReachingAlongPaths ∧ g.LiveAlongPaths := by
  have hg := Cfg.ofFunction_wellFormed h
  exact ⟨(definedGenKill g).unionOverPaths rfl rfl hg (definedGenKill_gen_subset g)
      (Nat.le_succ_of_le g.length_varNames_le),
    (liveGenKill g).unionOverPaths rfl rfl hg (liveGenKill_gen_subset g)
      (Nat.le_succ_of_le g.length_varNames_le),
    (reachingGenKill g).unionOverPaths rfl rfl hg (reachingGenKill_gen_subset g)
      (Nat.le_succ_of_le g.length_sites_le),
    (availableGenKill g).interOverPaths rfl rfl hg (Sorted.canon_ofList _)
      (availableGenKill_gen_subset g) (Nat.le_succ_of_le (length_exprUniverse_le g)),
    Cfg.reachingAlongPaths hg, Cfg.liveAlongPaths hg⟩

theorem analyses_meet_over_paths_loop :
    Cfg.ofFunction loopFunction = .ok loopGraph ∧
    (definedProblem loopGraph).UnionOverPaths loopGraph ∧
    (liveProblem loopGraph).UnionOverPaths loopGraph ∧
    (reachingProblem loopGraph).UnionOverPaths loopGraph ∧
    (availableProblem loopGraph).InterOverPaths loopGraph ∧
    loopGraph.ReachingAlongPaths ∧ loopGraph.LiveAlongPaths :=
  ⟨ofFunction_loopFunction,
    analyses_meet_over_paths loopFunction loopGraph ofFunction_loopFunction⟩

/-- For every graph of a function, the engine's loop stops on an empty worklist for each of the
five analyses and every configuration, within the bound its height gives. -/
theorem analyses_terminate (f : Function) (g : Cfg) (h : Cfg.ofFunction f = .ok g) :
    (definedProblem g).TerminatesWithin g ∧ (liveProblem g).TerminatesWithin g ∧
    (constantsProblem g).TerminatesWithin g ∧ (reachingProblem g).TerminatesWithin g ∧
    (availableProblem g).TerminatesWithin g := by
  have hg := Cfg.ofFunction_wellFormed h
  exact ⟨(definedFramework g).terminatesWithin hg, (liveFramework g).terminatesWithin hg,
    (constantsFramework g).terminatesWithin hg, (reachingFramework g).terminatesWithin hg,
    (availableFramework g).terminatesWithin hg⟩

theorem analyses_terminate_loop :
    Cfg.ofFunction loopFunction = .ok loopGraph ∧
    (definedProblem loopGraph).TerminatesWithin loopGraph ∧
    (liveProblem loopGraph).TerminatesWithin loopGraph ∧
    (constantsProblem loopGraph).TerminatesWithin loopGraph ∧
    (reachingProblem loopGraph).TerminatesWithin loopGraph ∧
    (availableProblem loopGraph).TerminatesWithin loopGraph :=
  ⟨ofFunction_loopFunction, analyses_terminate loopFunction loopGraph ofFunction_loopFunction⟩

/-- For every graph of a function, each of the five analyses seeded with its own answer returns
the same tables and takes every reachable block once, whatever the two configurations. -/
theorem analyses_reseed_stable (f : Function) (g : Cfg) (h : Cfg.ofFunction f = .ok g) :
    (definedProblem g).ReseedStable g ∧ (liveProblem g).ReseedStable g ∧
    (constantsProblem g).ReseedStable g ∧ (reachingProblem g).ReseedStable g ∧
    (availableProblem g).ReseedStable g := by
  have hg := Cfg.ofFunction_wellFormed h
  exact ⟨(definedFramework g).reseedStable hg, (liveFramework g).reseedStable hg,
    (constantsFramework g).reseedStable hg, (reachingFramework g).reseedStable hg,
    (availableFramework g).reseedStable hg⟩

theorem analyses_reseed_stable_loop :
    Cfg.ofFunction loopFunction = .ok loopGraph ∧
    (definedProblem loopGraph).ReseedStable loopGraph ∧
    (liveProblem loopGraph).ReseedStable loopGraph ∧
    (constantsProblem loopGraph).ReseedStable loopGraph ∧
    (reachingProblem loopGraph).ReseedStable loopGraph ∧
    (availableProblem loopGraph).ReseedStable loopGraph :=
  ⟨ofFunction_loopFunction,
    analyses_reseed_stable loopFunction loopGraph ofFunction_loopFunction⟩

end BrilFlow

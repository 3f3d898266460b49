import BrilFlow.Proofs.Analyses
import BrilFlow.Proofs.Edges
import BrilFlow.Proofs.Frame

/-! Reports as the analyses lay them out, and what an unreached block can change: nothing, except
through the universe of available expressions. -/
namespace BrilFlow

def AnalysisKind.emptyFact : AnalysisKind → FactValue
  | .cprop => .map []
  | _ => .set []

/-- How a report lays out the blocks of `g` read in direction `d`. -/
structure FunctionReport.Lays (r : FunctionReport) (g : Cfg) (d : Direction) (empty : FactValue) :
    Prop where
  names : r.blocks.map (·.name) = g.names
  reachable_iff : ∀ i (hi : i < r.blocks.length),
    r.blocks[i].reachable = true ↔ g.Reaches d (g.startOf d) i
  reachable_eq : ∀ i (hi : i < r.blocks.length),
    r.blocks[i].reachable = (g.reachable d)[i]?.getD false
  unreached : ∀ i (hi : i < r.blocks.length), r.blocks[i].reachable = false →
    r.blocks[i].input = empty ∧ r.blocks[i].output = empty

namespace Cfg

theorem map_name_range (g : Cfg) : (List.range g.size).map g.name = g.names := by
  apply List.ext_getElem (by simp [names, size])
  intro i hi _
  have inRange : i < g.blocks.size := by simpa [size] using hi
  simp [name, names, inRange]

theorem reachable_getD {g : Cfg} {d : Direction} {i : Nat} (hi : i < g.size) :
    (g.reachable d)[i]?.getD false = true ↔ g.Reaches d (g.startOf d) i := by
  have nonempty : g.size ≠ 0 := by omega
  rw [reachable, start?_eq, if_neg nonempty]
  exact reachableFrom_iff

end Cfg

section Layout

variable {α : Type} {g : Cfg} {p : Problem α} {start : Nat} {IN OUT : Nat → α} {s : Solution α}

theorem Solution.Holds.sides (holds : s.Holds g p start IN OUT) (n : Nat) :
    (g.Reaches p.direction start n → (∃ a, s.input[n]?.join = some a) ∧
      ∃ b, s.output[n]?.join = some b) ∧
    (¬g.Reaches p.direction start n → s.input[n]?.join = none ∧ s.output[n]?.join = none) := by
  have received := holds.received n
  have sends := holds.sends n
  have unreached := holds.unreached n
  cases hd : p.direction <;>
    simp only [Solution.received, Solution.sends, hd] at received sends unreached ⊢
  · exact ⟨fun reach => ⟨⟨_, received reach⟩, ⟨_, sends reach⟩⟩, unreached⟩
  · exact ⟨fun reach => ⟨⟨_, sends reach⟩, ⟨_, received reach⟩⟩,
      fun reach => (unreached reach).symm⟩

/-- A report built from tables that hold values exactly on the blocks reached from the start of
`p`'s direction lays the blocks out. -/
theorem Problem.reportOf_lays {function : String} {kind : AnalysisKind}
    (holds : s.Holds g p (g.startOf p.direction) IN OUT) :
    (p.reportOf g function kind s).Lays g p.direction (p.view p.empty) := by
  have length : (p.reportOf g function kind s).blocks.length = g.size := by simp [reportOf]
  -- an entry is marked reachable exactly when both tables have a value for its block
  have entry : ∀ i (hi : i < (p.reportOf g function kind s).blocks.length),
      (p.reportOf g function kind s).blocks[i].reachable = true ↔
        g.Reaches p.direction (g.startOf p.direction) i := by
    intro i hi
    rw [length] at hi
    obtain ⟨reached, unreached⟩ := holds.sides i
    simp only [reportOf, List.getElem_map, List.getElem_range]
    by_cases reach : g.Reaches p.direction (g.startOf p.direction) i
    · obtain ⟨⟨a, ha⟩, ⟨b, hb⟩⟩ := reached reach
      simp [ha, hb, reach]
    · obtain ⟨ha, hb⟩ := unreached reach
      simp [ha, hb, reach]
  refine ⟨?_, entry, fun i hi => ?_, fun i hi unmarked => ?_⟩
  · rw [← Cfg.map_name_range, reportOf, List.map_map]
    apply List.map_congr_left
    intro i _
    simp only [Function.comp]
    split <;> rfl
  · rw [Bool.eq_iff_iff, entry i hi, Cfg.reachable_getD (length ▸ hi)]
  · have reach : ¬g.Reaches p.direction (g.startOf p.direction) i := by
      rw [← entry i hi, unmarked]; simp
    obtain ⟨ha, hb⟩ := (holds.sides i).2 reach
    simp [reportOf, ha, hb]

theorem Problem.Framework.report_lays [DecidableEq α] (fw : p.Framework) (hg : g.WellFormed)
    (function : String) (kind : AnalysisKind) (config : EngineConfig) :
    (p.analysisRun g function kind config).report.Lays g p.direction (p.view p.empty) := by
  obtain ⟨IN, OUT, -, holds, -⟩ := solve_holds_least fw hg config
  exact Problem.reportOf_lays holds

end Layout

/-- For every graph built from blocks, every analysis and every configuration, the report has
one entry per block, in order and under the block's name, marked reachable exactly when the
block is reached from the start of the analysis's direction (the graph's own reachability), and
showing the analysis's empty fact on both sides when it is not. -/
theorem analysis_report_layout (blocks : List NamedBlock) (g : Cfg) (h : Cfg.ofBlocks blocks = .ok g)
    (kind : AnalysisKind) (function : String) (config : EngineConfig) :
    (kind.run g function config).report.Lays g kind.direction kind.emptyFact := by
  have hg := Cfg.ofBlocks_wellFormed h
  cases kind with
  | defined => exact (definedFramework g).report_lays hg function .defined config
  | live => exact (liveFramework g).report_lays hg function .live config
  | cprop => exact (constantsFramework g).report_lays hg function .cprop config
  | rdefs => exact (reachingFramework g).report_lays hg function .rdefs config
  | available => exact (availableFramework g).report_lays hg function .available config

/-- Two blocks: `b0` returns at once, and `dead`, which nothing reaches, computes `a - b`. -/
def deadSubBlocks : List NamedBlock :=
  [{ name := "b0", block := { ops := [.ret] } },
   { name := "dead",
     block := { label := some "dead", ops := [Operation.valueOp "sub" "x" ["a", "b"], .ret] } }]

def deadSubGraph : Cfg := { blocks := deadSubBlocks.toArray, succs := #[[], []], preds := #[[], []] }

theorem analysis_report_layout_deadSub :
    Cfg.ofBlocks deadSubBlocks = .ok deadSubGraph ∧
      (AnalysisKind.available.run deadSubGraph "main" {}).report.Lays deadSubGraph .forward
        (.set []) := by
  have built : Cfg.ofBlocks deadSubBlocks = .ok deadSubGraph := by decide +kernel
  exact ⟨built, analysis_report_layout _ _ built .available "main" {}⟩

section Unreached

variable {g₁ g₂ : Cfg}

theorem Cfg.length_names (g : Cfg) : g.names.length = g.size := by simp [Cfg.names, Cfg.size]

theorem Cfg.name_eq_of_names (names : g₁.names = g₂.names) (i : Nat) : g₁.name i = g₂.name i := by
  have := congrArg (·[i]?) names
  simp only [Cfg.names, List.getElem?_map, Array.getElem?_toList] at this
  simp [Cfg.name, this]

theorem Cfg.getElem?_blocks_eq (names : g₁.names = g₂.names) {n : Nat}
    (same : g₁.block? n = g₂.block? n) : g₁.blocks[n]? = g₂.blocks[n]? := by
  have named := congrArg (·[n]?) names
  simp only [Cfg.names, List.getElem?_map, Array.getElem?_toList] at named
  simp only [Cfg.block?] at same
  cases h₁ : g₁.blocks[n]? <;> cases h₂ : g₂.blocks[n]? <;> simp_all
  next nb₁ nb₂ => cases nb₁; cases nb₂; simp_all

theorem Cfg.sameEdges_of_successors (hg₁ : g₁.WellFormed) (hg₂ : g₂.WellFormed)
    (names : g₁.names = g₂.names) (succs : ∀ i, g₁.successors i = g₂.successors i) :
    g₁.SameEdges g₂ := by
  have size : g₁.size = g₂.size := by rw [← g₁.length_names, ← g₂.length_names, names]
  -- predecessors are read off the successor lists, one per block
  have preds : ∀ (g : Cfg), g.WellFormed → ∀ j,
      g.predecessors j = (List.range g.size).filter fun i => (g.successors i).contains j := by
    intro g hg j
    rw [hg.preds_eq, predecessorsOf, hg.succs_size]
    rfl
  exact ⟨size, succs, fun j => by rw [preds g₁ hg₁, preds g₂ hg₂, size]; simp only [succs]⟩

variable {α : Type} [DecidableEq α] {p₁ p₂ : Problem α} {ok : α → Prop}

theorem Problem.AgreeOn.report_eq (agree : p₁.AgreeOn g₁ (g₁.startOf p₁.direction) p₂ ok)
    (fw₁ : p₁.Framework) (fw₂ : p₂.Framework) (hg₁ : g₁.WellFormed) (edges : g₁.SameEdges g₂)
    (names : g₁.names = g₂.names) (view : p₁.view = p₂.view) (empty : p₁.empty = p₂.empty)
    (function : String) (kind : AnalysisKind) (config : EngineConfig) :
    (p₁.analysisRun g₁ function kind config).report =
      (p₂.analysisRun g₂ function kind config).report := by
  have solved : p₁.solve g₁ config = p₂.solve g₂ config := by
    rw [agree.solve_eq fw₁ fw₂ hg₁ config, Problem.solve, edges.solveFrom_eq, ← Problem.solve]
  simp only [Problem.analysisRun, Problem.reportOf, solved, edges.size, view, empty,
    Cfg.name_eq_of_names names]

/-- Every block reached from the start of `d` in `g₁` is the same block in `g₂`. -/
def SameReached (g₁ g₂ : Cfg) (d : Direction) : Prop :=
  ∀ n, g₁.Reaches d (g₁.startOf d) n → g₁.block? n = g₂.block? n

theorem definedProblem_agree (same : SameReached g₁ g₂ .forward) :
    (definedProblem g₁).AgreeOn g₁ (g₁.startOf .forward) (definedProblem g₂) fun _ => True where
  direction := rfl
  init := rfl
  merge := rfl
  ok_init := trivial
  ok_merge _ _ := trivial
  transfer n reach _ _ := by simp only [definedProblem, same n reach]
  ok_transfer _ _ _ _ := trivial

theorem liveProblem_agree (same : SameReached g₁ g₂ .backward) :
    (liveProblem g₁).AgreeOn g₁ (g₁.startOf .backward) (liveProblem g₂) fun _ => True where
  direction := rfl
  init := rfl
  merge := rfl
  ok_init := trivial
  ok_merge _ _ := trivial
  transfer n reach _ _ := by simp only [liveProblem, same n reach]
  ok_transfer _ _ _ _ := trivial

theorem constantsProblem_agree (same : SameReached g₁ g₂ .forward) :
    (constantsProblem g₁).AgreeOn g₁ (g₁.startOf .forward) (constantsProblem g₂) fun _ => True where
  direction := rfl
  init := rfl
  merge := rfl
  ok_init := trivial
  ok_merge _ _ := trivial
  transfer n reach _ _ := by simp only [constantsProblem, same n reach]
  ok_transfer _ _ _ _ := trivial

theorem reachingGen_agree (names : g₁.names = g₂.names) (same : SameReached g₁ g₂ .forward) {n : Nat}
    (reach : g₁.Reaches .forward (g₁.startOf .forward) n) :
    (reachingGenKill g₁).gen n = (reachingGenKill g₂).gen n := by
  simp only [reachingGenKill, reachingGen, Array.getElem?_map, Cfg.getElem?_blocks_eq names (same n reach)]

/-- Reaching definitions kill sites anywhere in the function, but the values the engine builds
hold only sites of reached blocks, which both functions have, and on those the two kill sets
agree. -/
theorem reachingProblem_agree (names : g₁.names = g₂.names) (same : SameReached g₁ g₂ .forward) :
    (reachingProblem g₁).AgreeOn g₁ (g₁.startOf .forward) (reachingProblem g₂)
      fun x => ∀ d ∈ x, d ∈ g₁.sites ∧ d ∈ g₂.sites where
  direction := rfl
  init := rfl
  merge := rfl
  ok_init := by simp [reachingProblem]
  ok_merge xs oks d hd := by
    obtain ⟨x, hx, hd⟩ := Sorted.mem_unionAll.mp hd
    exact oks x hx d hd
  transfer n reach x oks := by
    have gen := reachingGen_agree names same reach
    -- a site both functions have is killed when its variable has another generated site
    have kill : ∀ d ∈ x, d ∈ (reachingGenKill g₁).kill n ↔ d ∈ (reachingGenKill g₂).kill n := by
      intro d hd
      rw [mem_reachingKill, mem_reachingKill, gen]
      simp [(oks d hd).1, (oks d hd).2]
    show Sorted.union (Sorted.diff x ((reachingGenKill g₁).kill n)) ((reachingGenKill g₁).gen n) =
      Sorted.union (Sorted.diff x ((reachingGenKill g₂).kill n)) ((reachingGenKill g₂).gen n)
    rw [gen, Sorted.diff, Sorted.diff]
    congr 1
    apply List.filter_congr
    intro d hd
    rw [Bool.not_inj_iff, Bool.eq_iff_iff, Sorted.mem_iff, Sorted.mem_iff]
    exact kill d hd
  ok_transfer n reach x oks d hd := by
    rcases ((reachingGenKill g₁).mem_transfer n x d).mp hd with generated | ⟨mem, -⟩
    · exact ⟨reachingGenKill_gen_subset g₁ n generated,
        reachingGenKill_gen_subset g₂ n (reachingGen_agree names same reach ▸ generated)⟩
    · exact oks d mem

theorem availableGen_getD (g : Cfg) (n : Nat) :
    (availableGen g)[n]?.getD [] = ((g.block? n).map generatedExprs).getD [] := by
  simp [availableGen, Cfg.block?, Option.map_map, Function.comp_def]

theorem availableKill_getD (g : Cfg) (n : Nat) :
    (availableKill g)[n]?.getD [] = ((g.block? n).map (killedExprs (exprUniverse g))).getD [] := by
  simp [availableKill, Cfg.block?, Option.map_map, Function.comp_def]

theorem availableProblem_agree (sameUniverse : exprUniverse g₁ = exprUniverse g₂)
    (same : SameReached g₁ g₂ .forward) :
    (availableProblem g₁).AgreeOn g₁ (g₁.startOf .forward) (availableProblem g₂) fun _ => True where
  direction := rfl
  init := sameUniverse
  merge := by simp only [availableProblem, sameUniverse]
  ok_init := trivial
  ok_merge _ _ := trivial
  transfer n reach x _ := by
    show Sorted.union (Sorted.diff x ((availableKill g₁)[n]?.getD [])) ((availableGen g₁)[n]?.getD []) =
      Sorted.union (Sorted.diff x ((availableKill g₂)[n]?.getD [])) ((availableGen g₂)[n]?.getD [])
    rw [availableKill_getD, availableKill_getD, availableGen_getD, availableGen_getD,
      same n reach, sameUniverse]
  ok_transfer _ _ _ _ := trivial

end Unreached

/-- Two functions whose graphs have the same block names and successors, and the same blocks
wherever the analysis reaches from its start, get the same report from every analysis under
every configuration; for available expressions the two functions must also compute the same
expressions, since its universe is drawn from every block, reached or not. -/
theorem reports_ignore_unreached_blocks (f₁ f₂ : Function) (g₁ g₂ : Cfg)
    (h₁ : Cfg.ofFunction f₁ = .ok g₁) (h₂ : Cfg.ofFunction f₂ = .ok g₂)
    (names : g₁.names = g₂.names) (succs : ∀ i, g₁.successors i = g₂.successors i)
    (kind : AnalysisKind)
    (same : ∀ n, g₁.Reaches kind.direction (g₁.startOf kind.direction) n → g₁.block? n = g₂.block? n)
    (sameUniverse : kind = .available → exprUniverse g₁ = exprUniverse g₂)
    (function : String) (config : EngineConfig) :
    (kind.run g₁ function config).report = (kind.run g₂ function config).report := by
  have hg₁ := Cfg.ofFunction_wellFormed h₁
  have edges := Cfg.sameEdges_of_successors hg₁ (Cfg.ofFunction_wellFormed h₂) names succs
  cases kind with
  | defined =>
    exact (definedProblem_agree same).report_eq (definedFramework g₁) (definedFramework g₂) hg₁
      edges names rfl rfl function .defined config
  | live =>
    exact (liveProblem_agree same).report_eq (liveFramework g₁) (liveFramework g₂) hg₁
      edges names rfl rfl function .live config
  | cprop =>
    exact (constantsProblem_agree same).report_eq (constantsFramework g₁) (constantsFramework g₂)
      hg₁ edges names rfl rfl function .cprop config
  | rdefs =>
    exact (reachingProblem_agree names same).report_eq (reachingFramework g₁) (reachingFramework g₂)
      hg₁ edges names rfl rfl function .rdefs config
  | available =>
    exact (availableProblem_agree (sameUniverse rfl) same).report_eq (availableFramework g₁)
      (availableFramework g₂) hg₁ edges names rfl rfl function .available config

theorem Cfg.reaches_forward_of_successors_nil {g : Cfg} (none : g.successors 0 = []) {n : Nat}
    (reach : g.Reaches .forward 0 n) : n = 0 := by
  induction reach with
  | start _ => rfl
  | edge _ edge _ ih =>
    subst ih
    simp [Cfg.flowOut, none] at edge

/-- A function that returns at once; the block after it, which nothing reaches, computes
`a - b`. Its graph is `deadSubGraph`. -/
def deadSub : Function :=
  { name := "main",
    instrs := [.op .ret, .label "dead", .op (Operation.valueOp "sub" "x" ["a", "b"])] }

def deadEmpty : Function := { name := "main", instrs := [.op .ret, .label "dead"] }

def deadEmptyGraph : Cfg :=
  { blocks := #[{ name := "b0", block := { ops := [.ret] } },
      { name := "dead", block := { label := some "dead", ops := [.ret] } }]
    succs := #[[], []], preds := #[[], []] }

/-- Available expressions see what no path reaches: `a - b`, computed only in an unreachable
block, is available where the function starts, and is not once that block is emptied. -/
theorem available_sees_unreached_blocks :
    Cfg.ofFunction deadSub = .ok deadSubGraph ∧ Cfg.ofFunction deadEmpty = .ok deadEmptyGraph ∧
    deadSubGraph.names = deadEmptyGraph.names ∧
    (∀ i, deadSubGraph.successors i = deadEmptyGraph.successors i) ∧
    (∀ n, deadSubGraph.Reaches AnalysisKind.available.direction
      (deadSubGraph.startOf AnalysisKind.available.direction) n →
        deadSubGraph.block? n = deadEmptyGraph.block? n) ∧
    (AnalysisKind.available.run deadSubGraph "main" {}).report ≠
      (AnalysisKind.available.run deadEmptyGraph "main" {}).report := by
  refine ⟨by decide +kernel, by decide +kernel, rfl, fun _ => rfl, fun n reach => ?_, by decide +kernel⟩
  rw [Cfg.reaches_forward_of_successors_nil rfl reach]
  rfl

/-- A function that sets `x` and returns; the block after it, which nothing reaches, sets `x`
again. -/
def deadWrite : Function :=
  { name := "main",
    instrs := [.op (Operation.constant "x" (.int 1)), .op .ret, .label "dead",
      .op (Operation.constant "x" (.int 2))] }

def deadWriteEmptied : Function :=
  { name := "main", instrs := [.op (Operation.constant "x" (.int 1)), .op .ret, .label "dead"] }

def deadWriteGraph : Cfg :=
  { blocks := #[{ name := "b0", block := { ops := [Operation.constant "x" (.int 1), .ret] } },
      { name := "dead",
        block := { label := some "dead", ops := [Operation.constant "x" (.int 2), .ret] } }]
    succs := #[[], []], preds := #[[], []] }

def deadWriteEmptiedGraph : Cfg :=
  { blocks := #[{ name := "b0", block := { ops := [Operation.constant "x" (.int 1), .ret] } },
      { name := "dead", block := { label := some "dead", ops := [.ret] } }]
    succs := #[[], []], preds := #[[], []] }

theorem reports_ignore_unreached_blocks_deadWrite :
    Cfg.ofFunction deadWrite = .ok deadWriteGraph ∧
      Cfg.ofFunction deadWriteEmptied = .ok deadWriteEmptiedGraph ∧
      (AnalysisKind.rdefs.run deadWriteGraph "main" {}).report =
        (AnalysisKind.rdefs.run deadWriteEmptiedGraph "main" {}).report := by
  have h₁ : Cfg.ofFunction deadWrite = .ok deadWriteGraph := by decide +kernel
  have h₂ : Cfg.ofFunction deadWriteEmptied = .ok deadWriteEmptiedGraph := by decide +kernel
  refine ⟨h₁, h₂, reports_ignore_unreached_blocks deadWrite deadWriteEmptied _ _ h₁ h₂ rfl
    (fun _ => rfl) .rdefs (fun n reach => ?_) (fun h => by cases h) "main" {}⟩
  rw [Cfg.reaches_forward_of_successors_nil rfl reach]
  rfl

end BrilFlow

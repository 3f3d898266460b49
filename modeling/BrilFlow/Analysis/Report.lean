import BrilFlow.Analysis.Engine
import BrilFlow.Analysis.Defined
import BrilFlow.Analysis.Live
import BrilFlow.Analysis.Constants
import BrilFlow.Analysis.Reaching
import BrilFlow.Analysis.Available

/-! Analysis reports: every block in order with the facts flowing in and out, in program terms,
and whether it took part; a block that did not shows the empty fact on both sides. -/
namespace BrilFlow

inductive AnalysisKind where
  | defined
  | live
  | cprop
  | rdefs
  | available
deriving DecidableEq, Repr, Inhabited

namespace AnalysisKind

def all : List AnalysisKind := [.defined, .live, .cprop, .rdefs, .available]

def name : AnalysisKind → String
  | .defined => "defined"
  | .live => "live"
  | .cprop => "cprop"
  | .rdefs => "rdefs"
  | .available => "available"

def ofName? (s : String) : Option AnalysisKind := all.find? (·.name == s)

def unknownMessage (s : String) : String :=
  "Unknown analysis `" ++ s ++ "` (expected defined, live, cprop, rdefs or available)"

/-- The direction of an analysis: only `live` reads backwards. -/
def direction : AnalysisKind → Direction
  | .live => .backward
  | _ => .forward

end AnalysisKind

structure BlockFacts where
  name : String
  input : FactValue
  output : FactValue
  reachable : Bool
deriving DecidableEq, Repr, Inhabited

structure FunctionReport where
  function : String
  analysis : AnalysisKind
  blocks : List BlockFacts
deriving DecidableEq, Repr, Inhabited

/-- The facts of the first block of a name. -/
def FunctionReport.block? (r : FunctionReport) (name : String) : Option BlockFacts :=
  r.blocks.find? (·.name == name)

def Problem.reportOf {α : Type} (g : Cfg) (p : Problem α) (function : String) (kind : AnalysisKind)
    (s : Solution α) : FunctionReport :=
  { function, analysis := kind,
    blocks := (List.range g.size).map fun i =>
      match s.input[i]?.join, s.output[i]?.join with
      | some a, some b => { name := g.name i, input := p.view a, output := p.view b, reachable := true }
      | _, _ => { name := g.name i, input := p.view p.empty, output := p.view p.empty,
                  reachable := false } }

/-- What running an analysis on a graph shows: the report, which blocks took part, how many
blocks the engine took, and the same for a second run seeded with the first one's values,
together with whether that run found the same values. -/
structure AnalysisRun where
  report : FunctionReport
  reached : List Bool
  visits : Nat
  seededVisits : Nat
  seededSame : Bool

def Problem.analysisRun {α : Type} [DecidableEq α] (g : Cfg) (p : Problem α) (function : String)
    (kind : AnalysisKind) (config : EngineConfig) : AnalysisRun :=
  let s := p.solve g config
  let t := p.solveSeeded g config s
  { report := p.reportOf g function kind s,
    reached := (List.range g.size).map s.isReachable,
    visits := s.visits, seededVisits := t.visits,
    seededSame := s.input = t.input ∧ s.output = t.output }

def AnalysisKind.run (kind : AnalysisKind) (g : Cfg) (function : String) (config : EngineConfig) :
    AnalysisRun :=
  match kind with
  | .defined => (definedProblem g).analysisRun g function kind config
  | .live => (liveProblem g).analysisRun g function kind config
  | .cprop => (constantsProblem g).analysisRun g function kind config
  | .rdefs => (reachingProblem g).analysisRun g function kind config
  | .available => (availableProblem g).analysisRun g function kind config

def analyzeFunction (f : Function) (kind : AnalysisKind) (config : EngineConfig) :
    Except BlockError AnalysisRun := do
  let g ← Cfg.ofFunction f
  return kind.run g f.name config

/-- Analyses every function of a program, each on its own. -/
def analyzeProgram (p : Program) (kind : AnalysisKind) (config : EngineConfig) :
    List (String × Except BlockError AnalysisRun) :=
  p.functions.map fun f => (f.name, analyzeFunction f kind config)

def BlockFacts.toJson (b : BlockFacts) : Json :=
  .obj [("name", .str b.name), ("in", b.input.toJson), ("out", b.output.toJson),
        ("reachable", .bool b.reachable)]

def FunctionReport.toJson (r : FunctionReport) : Json :=
  .obj [("function", .str r.function), ("analysis", .str r.analysis.name),
        ("blocks", .arr (r.blocks.map BlockFacts.toJson))]

end BrilFlow

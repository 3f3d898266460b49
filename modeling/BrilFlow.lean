import BrilFlow.Decimal.Binary64
import BrilFlow.Decimal.Read
import BrilFlow.Decimal.Shortest
import BrilFlow.Decimal.Layout
import BrilFlow.Unicode.Range
import BrilFlow.Unicode.GraphemeExtend
import BrilFlow.Unicode.Printable
import BrilFlow.Json.Value
import BrilFlow.Json.Writer
import BrilFlow.Json.Error
import BrilFlow.Json.Reader
import BrilFlow.Program.Ty
import BrilFlow.Program.Literal
import BrilFlow.Program.Instr
import BrilFlow.Program.Basic
import BrilFlow.Program.Json
import BrilFlow.Program.JsonText
import BrilFlow.Text.Peg
import BrilFlow.Text.Failure
import BrilFlow.Text.Grammar
import BrilFlow.Parse.Error
import BrilFlow.Text.Lower
import BrilFlow.Parse.Basic
import BrilFlow.Cfg.Block
import BrilFlow.Cfg.Naming
import BrilFlow.Cfg.Basic
import BrilFlow.Cfg.Reach
import BrilFlow.Cfg.Dot
import BrilFlow.Cfg.Json
import BrilFlow.Analysis.Sorted
import BrilFlow.Analysis.Fact
import BrilFlow.Analysis.Problem
import BrilFlow.Analysis.Worklist
import BrilFlow.Analysis.Engine
import BrilFlow.Analysis.Defined
import BrilFlow.Analysis.Live
import BrilFlow.Analysis.Constants
import BrilFlow.Analysis.Reaching
import BrilFlow.Analysis.Available
import BrilFlow.Analysis.Report
import BrilFlow.Analysis.Listing
import BrilFlow.Shape.Distance
import BrilFlow.Shape.Walk
import BrilFlow.Shape.Dominator
import BrilFlow.Shape.Basic
import BrilFlow.Cli.Similar
import BrilFlow.Cli.Spec
import BrilFlow.Cli.Usage
import BrilFlow.Cli.Parse
import BrilFlow.Cli.Run
import BrilFlow.Main
import BrilFlow.Proofs.SortedSet
import BrilFlow.Proofs.LastWrites
import BrilFlow.Proofs.Graph
import BrilFlow.Proofs.Edges
import BrilFlow.Proofs.WorklistFacts
import BrilFlow.Proofs.Equations
import BrilFlow.Proofs.EngineRun
import BrilFlow.Proofs.Solve
import BrilFlow.Proofs.GenKill
import BrilFlow.Proofs.SetAnalyses
import BrilFlow.Proofs.ConstLattice
import BrilFlow.Proofs.Paths
import BrilFlow.Proofs.ReachingLive
import BrilFlow.Proofs.Analyses
import BrilFlow.Proofs.Frame
import BrilFlow.Proofs.Reports
import BrilFlow.Proofs.FloatText
import BrilFlow.Proofs.PegSpec
import BrilFlow.Proofs.TextForm
import BrilFlow.Proofs.TextTokens
import BrilFlow.Proofs.TextOperands
import BrilFlow.Proofs.TextGrammar
import BrilFlow.Proofs.TextRoundTrip
import BrilFlow.Proofs.Partition
import BrilFlow.Proofs.Naming
import BrilFlow.Proofs.ReachingTransfer
import BrilFlow.Proofs.BlockTransfers
import BrilFlow.Proofs.ConstMerge
import BrilFlow.Proofs.DepthFirst
import BrilFlow.Proofs.Dominance
import BrilFlow.Proofs.Dominators
import BrilFlow.Proofs.DepthFirstOrder
import BrilFlow.Proofs.Reducible
import BrilFlow.Proofs.Distances
import BrilFlow.Proofs.TextErrors
import BrilFlow.Proofs.WorklistRuns
import BrilFlow.Proofs.DotRoundTrip
import BrilFlow.Proofs.JsonReads
import BrilFlow.Proofs.JsonStrings
import BrilFlow.Proofs.JsonNumbers
import BrilFlow.Proofs.JsonValues
import BrilFlow.Proofs.JsonNumberWindow
import BrilFlow.Proofs.ProgramJsonValues
import BrilFlow.Proofs.ProgramJsonText
import BrilFlow.Proofs.ProgramJsonDepth

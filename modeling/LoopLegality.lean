import LoopLegality.Access
import LoopLegality.Access.Collect
import LoopLegality.Alignment
import LoopLegality.CallSummary
import LoopLegality.CommandLine
import LoopLegality.CommandLine.Run
import LoopLegality.CommandLine.Store
import LoopLegality.Config
import LoopLegality.Config.Json
import LoopLegality.Constraint
import LoopLegality.Constraint.Feasibility
import LoopLegality.Constraint.Tighten
import LoopLegality.CountedLoop
import LoopLegality.Dependence
import LoopLegality.Dependence.Analysis
import LoopLegality.Dependence.Problem
import LoopLegality.Diagnostic
import LoopLegality.Direction
import LoopLegality.Direction.Search
import LoopLegality.Effect
import LoopLegality.Error
import LoopLegality.Expr
import LoopLegality.Expr.Value
import LoopLegality.Fusion
import LoopLegality.Grammar.Expression
import LoopLegality.Grammar.Parser
import LoopLegality.Grammar.Program
import LoopLegality.Grammar.Statement
import LoopLegality.IndexMap
import LoopLegality.Json
import LoopLegality.Json.Read
import LoopLegality.Linear
import LoopLegality.Main
import LoopLegality.Nest
import LoopLegality.Occurrence
import LoopLegality.Operator
import LoopLegality.Proofs.Coverage
import LoopLegality.Proofs.Dependences
import LoopLegality.Proofs.Execution
import LoopLegality.Proofs.Feasibility
import LoopLegality.Proofs.Frame
import LoopLegality.Proofs.Instances
import LoopLegality.Proofs.Linear
import LoopLegality.Proofs.Problem
import LoopLegality.Proofs.Row
import LoopLegality.Proofs.Search
import LoopLegality.Proofs.Tighten
import LoopLegality.Proofs.Touches
import LoopLegality.Proofs.Uses
import LoopLegality.Proofs.Verdict
import LoopLegality.Proofs.Walk
import LoopLegality.Propagation
import LoopLegality.Rename
import LoopLegality.Report
import LoopLegality.Scope
import LoopLegality.Span
import LoopLegality.Stmt
import LoopLegality.Symbol
import LoopLegality.Text.Binary64
import LoopLegality.Text.Blank
import LoopLegality.Text.Identifier
import LoopLegality.Text.Quoted
import LoopLegality.Text.Ranges
import LoopLegality.Text.Visible
import LoopLegality.Token
import LoopLegality.Token.Literal
import LoopLegality.Token.Scan
import LoopLegality.Transformation
import LoopLegality.Transformation.Check
import LoopLegality.Transformation.Context
import LoopLegality.Transformation.Json
import LoopLegality.Word
import LoopLegality.Proofs.Constants
import LoopLegality.Proofs.Exchange
import LoopLegality.Proofs.Separation
import LoopLegality.Proofs.Bounds
import LoopLegality.Proofs.Evaluated
import LoopLegality.Proofs.Escape
import LoopLegality.Proofs.RegionConstants
import LoopLegality.Proofs.Memory
import LoopLegality.Proofs.Matching
import LoopLegality.Proofs.Unification
import LoopLegality.Proofs.Counting
import LoopLegality.Proofs.Rectangle
import LoopLegality.Proofs.RationalPoint
import LoopLegality.Proofs.Capture
import LoopLegality.Proofs.Differences
import LoopLegality.Proofs.Weighted
import LoopLegality.Proofs.UniformPair
import LoopLegality.Proofs.UniformLoop
import LoopLegality.Proofs.Roundtrip
import LoopLegality.Proofs.Exhaustive
import LoopLegality.Proofs.Tiling
import LoopLegality.Proofs.Layout
import LoopLegality.Proofs.Scoping
import LoopLegality.Proofs.Encoding
import LoopLegality.Proofs.Relabeling
import LoopLegality.Proofs.IndexWrites
import LoopLegality.Proofs.Declarations
import LoopLegality.Proofs.DependenceSet
import LoopLegality.Proofs.Interchange
import LoopLegality.Proofs.RegularRegion
import LoopLegality.Proofs.Distribution
import LoopLegality.Proofs.NormalForm
import LoopLegality.Proofs.Exact
import LoopLegality.Proofs.Origins
import LoopLegality.Proofs.Whitelist
import LoopLegality.Proofs.Monotonicity
import LoopLegality.Proofs.DeclarationEffects
import LoopLegality.Proofs.TripCount
import LoopLegality.Proofs.Renaming
import LoopLegality.Proofs.Environments
import LoopLegality.Proofs.LoopOrder
import LoopLegality.Proofs.LinearText
import LoopLegality.Proofs.Faithful
import LoopLegality.Proofs.Divisibility
import LoopLegality.Proofs.Settling
import LoopLegality.Proofs.Elimination
import LoopLegality.Proofs.Lockstep
import LoopLegality.Proofs.Consumption
import LoopLegality.Proofs.Termination

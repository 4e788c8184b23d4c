import LoopLegality.Access.Collect
import LoopLegality.Dependence
import LoopLegality.Dependence.Problem
import LoopLegality.Propagation

namespace LoopLegality

/-- What the analysis of regions in one function depends on. Without a flow no constants are
assumed. -/
structure Analyzer where
  symbols : SymbolTable
  calls : CallSummary
  config : Config
  flow : Option Flow := none
  cancelled : Bool := false

structure DependenceAnalysis where
  accesses : List Access
  dependences : List Dependence
  loops : IndexMap CountedLoop

structure PairContext where
  symbols : SymbolTable
  loops : IndexMap CountedLoop
  env : ConstEnv
  accesses : List Access

namespace PairContext

def declaration? (c : PairContext) (x : Symbol) : Option Access :=
  c.accesses.find? fun a => a.symbol == x && a.isDeclaration && !a.loops.isEmpty

/-- The number of loops that make a new object of the symbol for each iteration, around both
accesses. -/
def privateLoops (c : PairContext) (source sink : Access) : Nat :=
  match c.declaration? source.symbol with
  | some d => min (source.commonLoops d) (sink.commonLoops d)
  | none => 0

/-- Whether both have linear subscripts, as many as the array has dimensions. -/
def isAffinePair (c : PairContext) (source sink : Access) : Bool :=
  match source.linearSubscripts?, sink.linearSubscripts? with
  | some a, some b =>
    a.length == b.length && (c.symbols.rank? source.symbol).all (· == a.length)
  | _, _ => false

def problem? (c : PairContext) (source sink : Access) : Option DependenceProblem :=
  if c.isAffinePair source sink then DependenceProblem.ofPair? c.loops c.env source sink
  else none

/-- The vectors that the subscripts allow. Where they say nothing, any iteration of a loop
that does not renew the object may meet any other. -/
def candidates (c : PairContext) (source sink : Access) :
    Except Overflow (List (List Direction)) := do
  let fixed := c.privateLoops source sink
  match c.problem? source sink with
  | some p => return (← p.directions).filter fun v => (v.take fixed).all (· == .eq)
  | none =>
    return [List.replicate fixed .eq ++ List.replicate (source.commonLoops sink - fixed) .any]

def directions (c : PairContext) (source sink : Access) :
    Except Overflow (List (List Direction)) := do
  if sink.isDeclaration || (source.commonLoops sink == 0 && !source.precedes sink) then return []
  let sameIteration := source.order != sink.order && source.precedes sink
  return (← c.candidates source sink).filter fun v => sameIteration || v.any (· != .eq)

/-- The pairs of accesses to one binding that are not both reads, source by source. -/
def pairs (group : List Access) : List (Access × Access) :=
  group.flatMap fun source => (group.filter fun sink => source.isWrite || sink.isWrite).map
    fun sink => (source, sink)

def groups (accesses : List Access) : List (List Access) :=
  (ascending (accesses.map (·.symbol))).map fun x => accesses.filter (·.symbol == x)

def dependencesOf (c : PairContext) (pair : Access × Access) :
    Except Overflow (List Dependence) :=
  return (← c.directions pair.1 pair.2).map fun v => ⟨pair.1, pair.2, v⟩

def dependences (c : PairContext) : Except Overflow (List Dependence) :=
  return (← ((groups c.accesses).flatMap pairs).mapM c.dependencesOf).flatten

end PairContext

namespace Analyzer

/-- The constants that hold throughout a region: those known at its first loop, less all that
the region writes. -/
def regionEnv (a : Analyzer) (stmts : List Stmt) (loops : IndexMap CountedLoop) : ConstEnv :=
  if a.config.propagateConstants then
    match a.flow, loops.keys.head? with
    | some flow, some first =>
      ((flow.envAt? first).getD .empty).eraseAll (stmts.flatMap Stmt.written)
    | _, _ => .empty
  else .empty

def collector (a : Analyzer) : Collector := ⟨a.symbols, a.calls, a.config, a.cancelled⟩

def analyze (a : Analyzer) (stmts : List Stmt) : Except AnalysisError DependenceAnalysis := do
  let set ← a.collector.collect stmts
  let context : PairContext := ⟨a.symbols, set.loops, a.regionEnv stmts set.loops, set.accesses⟩
  return ⟨set.accesses, ← context.dependences.mapError fun _ => .overflow, set.loops⟩

end Analyzer

structure DependenceSummary where
  accesses : Nat
  dependences : Nat
  flow : Nat
  anti : Nat
  output : Nat
  input : Nat
  carried : Nat
  independent : Nat
  maxDepth : Nat
deriving DecidableEq, Inhabited, Repr

namespace DependenceSummary

def lines (s : DependenceSummary) : List String :=
  ["Dependence Summary:",
    s!"  Accesses: {s.accesses}",
    s!"  Total dependences: {s.dependences}",
    s!"    Flow (RAW): {s.flow}",
    s!"    Anti (WAR): {s.anti}",
    s!"    Output (WAW): {s.output}",
    s!"    Input (RAR): {s.input}",
    s!"  Loop-carried: {s.carried}",
    s!"  Loop-independent: {s.independent}",
    s!"  Max depth: {s.maxDepth}"]

def text (s : DependenceSummary) : String := String.join (s.lines.map (· ++ "\n"))

end DependenceSummary

namespace DependenceAnalysis

def carriedAt (a : DependenceAnalysis) (level : Nat) : List Dependence :=
  a.dependences.filter (·.isTrueAt level)

def carriedCount (a : DependenceAnalysis) : Nat :=
  (a.dependences.filter fun d => d.kind.isTrue && d.isCarried).length

def countOf (a : DependenceAnalysis) (kind : Dependence.Kind) : Nat :=
  (a.dependences.filter (·.kind == kind)).length

def summary (a : DependenceAnalysis) : DependenceSummary where
  accesses := a.accesses.length
  dependences := a.dependences.length
  flow := a.countOf .flow
  anti := a.countOf .anti
  output := a.countOf .output
  input := a.countOf .input
  carried := (a.dependences.filter (·.isCarried)).length
  independent := (a.dependences.filter (!·.isCarried)).length
  maxDepth := (a.dependences.map (·.direction.length)).foldl max 0

end DependenceAnalysis

end LoopLegality

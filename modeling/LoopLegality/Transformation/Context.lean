import LoopLegality.Dependence.Analysis

namespace LoopLegality

structure CheckContext where
  program : Program
  function : Function
  config : Config
  cancelled : Bool := false

namespace CheckContext

def symbols (c : CheckContext) : SymbolTable := c.program.symbols

def flow (c : CheckContext) : Flow := Flow.ofFunction c.function

def analyzer (c : CheckContext) : Analyzer where
  symbols := c.symbols
  calls := CallSummary.ofFunction c.program c.function c.config
  config := c.config
  flow := some c.flow
  cancelled := c.cancelled

def analyze (c : CheckContext) (stmts : List Stmt) : Except AnalysisError DependenceAnalysis :=
  c.analyzer.analyze stmts

def envAt (c : CheckContext) (id : LoopId) : ConstEnv :=
  if c.config.propagateConstants then (c.flow.envAt? id).getD .empty else .empty

def mentioned (c : CheckContext) : List Symbol :=
  c.function.params.map (·.symbol) ++ c.function.body.referenced ++
    c.program.globals.flatMap Declaration.referenced

def isNameVisible (c : CheckContext) (name : String) : Bool :=
  c.mentioned.any (c.symbols.name · == name)

end CheckContext

end LoopLegality

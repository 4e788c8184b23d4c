import LoopLegality.IndexMap
import LoopLegality.Occurrence

namespace LoopLegality

def Expr.targets : Expr → List Symbol
  | .ident x _ => [x]
  | .subscript b _ _ => b.targets
  | .field o m _ _ => m :: o.targets
  | .unary .addressOf e _ => e.targets
  | _ => []

/-- The bindings that this node itself may write. What is passed by address may be written by
whoever receives it. -/
def Expr.writes : Expr → List Symbol
  | .assign _ l _ _ => l.targets
  | .unary op e _ => if op.isIncrement || op == .addressOf then e.targets else []
  | _ => []

def Expr.mentions : Expr → List Symbol
  | .ident x _ => [x]
  | .field _ m _ _ => [m]
  | _ => []

namespace Node

def writes : Node → List Symbol
  | declarator d => [d.symbol]
  | expr e => e.writes

def mentions : Node → List Symbol
  | declarator d => [d.symbol]
  | expr e => e.mentions

def declares : Node → List Symbol
  | declarator d => [d.symbol]
  | expr _ => []

end Node

namespace Stmt

def written (s : Stmt) : List Symbol := ascending (s.nodes.flatMap Node.writes)

def referenced (s : Stmt) : List Symbol := ascending (s.nodes.flatMap Node.mentions)

def declared (s : Stmt) : List Symbol := ascending (s.nodes.flatMap Node.declares)

end Stmt

def Declaration.referenced (d : Declaration) : List Symbol :=
  ascending (d.nodes.flatMap Node.mentions)

def Expr.isEffect : Expr → Bool
  | .assign .. | .call .. => true
  | .unary op _ _ => op.isIncrement
  | _ => false

def Expr.hasEffect (e : Expr) : Bool := e.nodes.any Expr.isEffect

end LoopLegality

import LoopLegality.Stmt

namespace LoopLegality

inductive Node where
  | declarator (d : Declarator)
  | expr (e : Expr)

mutual

def Initializer.exprs : Initializer → List Expr
  | .expr e => [e]
  | .list items => exprsOf items

def Initializer.exprsOf : List Initializer → List Expr
  | [] => []
  | i :: is => i.exprs ++ exprsOf is

end

def Declarator.exprs (d : Declarator) : List Expr :=
  d.dims.filterMap id ++ (d.init.map Initializer.exprs).getD []

def Expr.occurrences (e : Expr) : List Node := e.nodes.map .expr

def Declarator.nodes (d : Declarator) : List Node :=
  .declarator d :: d.exprs.flatMap Expr.occurrences

def Declaration.nodes (d : Declaration) : List Node := d.declarators.flatMap Declarator.nodes

def ForInit.nodes : ForInit → List Node
  | .decl d => d.nodes
  | .expr e _ => e.occurrences
  | .null _ => []

def optionNodes (e : Option Expr) : List Node := (e.map Expr.occurrences).getD []

def ForHeader.nodes (h : ForHeader) : List Node :=
  (h.init.map ForInit.nodes).getD [] ++ optionNodes h.cond ++ optionNodes h.incr

mutual

/-- Every declarator and expression of a statement, in the order written, outer before inner. -/
def Stmt.nodes : Stmt → List Node
  | .decl ds _ => ds.flatMap Declarator.nodes
  | .expr e _ => e.occurrences
  | .forLoop h b _ => h.nodes ++ b.nodes
  | .compound ss _ => Stmt.nodesOf ss
  | .branch c t none _ => c.occurrences ++ t.nodes
  | .branch c t (some f) _ => c.occurrences ++ t.nodes ++ f.nodes
  | .ret e _ => optionNodes e
  | .whileLoop c b _ => c.occurrences ++ b.nodes
  | .doWhile b c _ => b.nodes ++ c.occurrences
  | .switch c b _ => c.occurrences ++ b.nodes
  | .caseLabel e _ => e.occurrences
  | .label _ b _ => b.nodes
  | .null _ | .defaultLabel _ | .break _ | .continue _ | .goto _ _ => []

def Stmt.nodesOf : List Stmt → List Node
  | [] => []
  | s :: ss => s.nodes ++ Stmt.nodesOf ss

end

end LoopLegality

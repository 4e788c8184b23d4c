import LoopLegality.Stmt

namespace LoopLegality

variable (f : Symbol → Symbol)

mutual

def Initializer.rename : Initializer → Initializer
  | .expr e => .expr (e.rename f)
  | .list items => .list (Initializer.renameAll items)

def Initializer.renameAll : List Initializer → List Initializer
  | [] => []
  | i :: is => i.rename :: Initializer.renameAll is

end

def Declarator.rename (d : Declarator) : Declarator :=
  { d with
    symbol := f d.symbol
    dims := d.dims.map (·.map (Expr.rename f))
    init := d.init.map (Initializer.rename f) }

def Declaration.rename (d : Declaration) : Declaration :=
  { d with declarators := d.declarators.map (Declarator.rename f) }

def ForInit.rename : ForInit → ForInit
  | .decl d => .decl (d.rename f)
  | .expr e s => .expr (e.rename f) s
  | .null s => .null s

def ForHeader.rename (h : ForHeader) : ForHeader :=
  { h with
    init := h.init.map (ForInit.rename f)
    cond := h.cond.map (Expr.rename f)
    incr := h.incr.map (Expr.rename f) }

mutual

/-- The statement with its variables renamed where they are used and where they are declared.
Members and labels keep their names. -/
def Stmt.rename : Stmt → Stmt
  | .decl ds s => .decl (ds.map (Declarator.rename f)) s
  | .expr e s => .expr (e.rename f) s
  | .forLoop h b s => .forLoop (h.rename f) b.rename s
  | .compound ss s => .compound (Stmt.renameAll ss) s
  | .branch c t none s => .branch (c.rename f) t.rename none s
  | .branch c t (some e) s => .branch (c.rename f) t.rename (some e.rename) s
  | .ret e s => .ret (e.map (Expr.rename f)) s
  | .whileLoop c b s => .whileLoop (c.rename f) b.rename s
  | .doWhile b c s => .doWhile b.rename (c.rename f) s
  | .switch c b s => .switch (c.rename f) b.rename s
  | .caseLabel e s => .caseLabel (e.rename f) s
  | .label n b s => .label n b.rename s
  | s => s

def Stmt.renameAll : List Stmt → List Stmt
  | [] => []
  | s :: ss => s.rename :: Stmt.renameAll ss

end

end LoopLegality

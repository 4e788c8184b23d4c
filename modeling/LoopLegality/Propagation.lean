import LoopLegality.Effect
import LoopLegality.Expr.Value

namespace LoopLegality

namespace ConstEnv

def assign (env : ConstEnv) (x : Symbol) : Option Int → ConstEnv
  | some n => env.insert x n
  | none => env.erase x

/-- What is known after an object is declared. An object that outlives its block keeps what
earlier visits left in it. -/
def afterDeclarator (env : ConstEnv) (d : Declarator) : ConstEnv :=
  if !d.dims.isEmpty || d.pointer || d.storage != .automatic then env.erase d.symbol
  else match d.init with
    | none => env.erase d.symbol
    | some (.list _) => .empty
    | some (.expr e) => if e.hasEffect then .empty else env.assign d.symbol (e.eval? env)

/-- What is known after a write to a place whose new value would be `value`. Elements and
members are not tracked. -/
def afterWrite (env : ConstEnv) (place : Expr) (value : Symbol → Option Int) : ConstEnv :=
  match place with
  | .ident x _ => env.assign x (value x)
  | .subscript .. | .field .. => if place.hasEffect then .empty else env
  | _ => .empty

def afterExpr (env : ConstEnv) : Expr → ConstEnv
  | .assign op l r _ =>
    if r.hasEffect then .empty
    else env.afterWrite l fun x => match op with
      | .plain => r.eval? env
      | .compound op => do op.result? (← env.get? x) (← r.eval? env)
  | .unary op e _ =>
    match op with
    | .preIncr | .postIncr => env.afterWrite e fun x => do Word.add? (← env.get? x) 1
    | .preDecr | .postDecr => env.afterWrite e fun x => do Word.add? (← env.get? x) (-1)
    | _ => .empty
  | _ => .empty

def afterInit (env : ConstEnv) : Option ForInit → ConstEnv
  | none | some (.null _) => env
  | some (.decl d) => d.declarators.foldl afterDeclarator env
  | some (.expr e _) => env.afterExpr e

end ConstEnv

structure Flow where
  exit : ConstEnv
  loops : List (LoopId × ConstEnv)

namespace Flow

def straight (env : ConstEnv) : Flow := ⟨env, []⟩

mutual

/-- Both arms of a branch are followed and what they agree on is kept. A loop forgets all that
it writes. A statement that is not followed forgets everything. -/
def ofStmt : Stmt → ConstEnv → Flow
  | .null _, env => straight env
  | .decl ds _, env => straight (ds.foldl ConstEnv.afterDeclarator env)
  | .expr e _, env => straight (env.afterExpr e)
  | .compound ss _, env => ofStmts ss env
  | .branch c t none _, env =>
    if c.hasEffect then ⟨.empty, (ofStmt t .empty).loops⟩
    else
      let yes := ofStmt t env
      ⟨yes.exit.meet env, yes.loops⟩
  | .branch c t (some e) _, env =>
    if c.hasEffect then ⟨.empty, (ofStmt t .empty).loops ++ (ofStmt e .empty).loops⟩
    else
      let yes := ofStmt t env
      let no := ofStmt e env
      ⟨yes.exit.meet no.exit, yes.loops ++ no.loops⟩
  | .forLoop h b s, env =>
    let invariant := (env.afterInit h.init).eraseAll (Stmt.forLoop h b s).written
    ⟨invariant, (h.id, invariant) :: (ofStmt b invariant).loops⟩
  | .whileLoop _ b _, _ | .doWhile b _ _, _ | .switch _ b _, _ | .label _ b _, _ =>
    ⟨.empty, (ofStmt b .empty).loops⟩
  | _, _ => straight .empty

def ofStmts : List Stmt → ConstEnv → Flow
  | [], env => straight env
  | s :: ss, env =>
    let first := ofStmt s env
    let rest := ofStmts ss first.exit
    ⟨rest.exit, first.loops ++ rest.loops⟩

end

def ofFunction (f : Function) : Flow := ofStmts f.statements .empty

def envAt? (flow : Flow) (id : LoopId) : Option ConstEnv := flow.loops.lookup id

def evalAt? (flow : Flow) (id : LoopId) (e : Expr) : Option Int := do e.eval? (← flow.envAt? id)

end Flow

end LoopLegality

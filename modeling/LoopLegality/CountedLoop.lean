import LoopLegality.Effect
import LoopLegality.Expr.Value
import LoopLegality.Linear

namespace LoopLegality

/-- A loop `for (i = lower; i < upper; i += step)`, or with `<=` if inclusive, that counts
upward. -/
structure CountedLoop where
  id : LoopId
  index : Symbol
  declaresIndex : Bool
  lower : Expr
  upper : Expr
  inclusive : Bool
  step : Int
  step_pos : 0 < step

namespace CountedLoop

def start? : ForInit → Option (Symbol × Expr × Bool)
  | .expr (.assign .plain (.ident x _) e _) _ => some (x, e, false)
  | .decl ⟨[d], _⟩ =>
    if d.dims.isEmpty && !d.pointer then
      match d.init with
      | some (.expr e) => some (d.symbol, e, true)
      | _ => none
    else none
  | _ => none

def limit? (index : Symbol) : Expr → Option (Expr × Bool)
  | .binary .lt l r _ => if l.ident? = some index then some (r, false) else none
  | .binary .le l r _ => if l.ident? = some index then some (r, true) else none
  | _ => none

def step? (index : Symbol) : Expr → Option Int
  | .unary .postIncr e _ | .unary .preIncr e _ => if e.ident? = some index then some 1 else none
  | .assign (.compound .add) l r _ => if l.ident? = some index then r.int? else none
  | .assign .plain l (.binary .add a b _) _ =>
    if l.ident? = some index then
      if a.ident? = some index then b.int?
      else if b.ident? = some index then a.int?
      else none
    else none
  | _ => none

def ofHeader? (h : ForHeader) : Option CountedLoop := do
  let (index, lower, declaresIndex) ← start? (← h.init)
  let (upper, inclusive) ← limit? index (← h.cond)
  let step ← step? index (← h.incr)
  if step_pos : 0 < step then
    return { id := h.id, index, declaresIndex, lower, upper, inclusive, step, step_pos }
  else none

def lowerLinear? (l : CountedLoop) : Option Linear := Linear.ofExpr? l.lower

def upperLinear? (l : CountedLoop) : Option Linear := do
  let upper ← Linear.ofExpr? l.upper
  if l.inclusive then return upper else upper.add? (.const (-1))

def lowerBound? (l : CountedLoop) (env : ConstEnv) : Option Int := l.lower.eval? env

def upperBound? (l : CountedLoop) (env : ConstEnv) : Option Int := do
  let upper ← l.upper.eval? env
  if l.inclusive then return upper else Word.sub? upper 1

def tripCount? (l : CountedLoop) (env : ConstEnv) : Option Int := do
  let lo ← l.lowerBound? env
  let hi ← l.upperBound? env
  if hi < lo then return 0
  Word.add? ((← Word.sub? hi lo).tdiv l.step) 1

end CountedLoop

def ForLoop.bodyWrites (l : ForLoop) (x : Symbol) : Bool := l.body.written.contains x

end LoopLegality

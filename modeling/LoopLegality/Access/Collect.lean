import LoopLegality.Access
import LoopLegality.CallSummary
import LoopLegality.CountedLoop
import LoopLegality.Error

namespace LoopLegality

/-- What the collection of touches depends on. The indices of the loops around an expression
must not be written in it. -/
structure Touch.Context where
  symbols : SymbolTable
  calls : CallSummary
  strict : Bool
  indices : List Symbol

namespace Touch

abbrev Result := Except Unsupported (List Touch)

def refuse (cause : Unsupported.Cause) (span : Span) : Result := .error ⟨cause, span⟩

def one (c : Context) (t : Touch) : Result :=
  if t.isWrite && c.indices.contains t.symbol then
    refuse (.indexWrite (c.symbols.name t.symbol)) t.span
  else .ok [t]

def scalar (c : Context) (x : Symbol) (isWrite : Bool) (span : Span) : Result :=
  one c ⟨x, isWrite, none, false, span⟩

/-- The subscripts of a chain, outermost dimension first, and what they are applied to. -/
def chain : Expr → List Expr × Expr
  | .subscript base index _ => let c := chain base; (c.1 ++ [index], c.2)
  | e => ([], e)

def element (c : Context) (e : Expr) (isWrite : Bool) : Result :=
  let (indices, base) := chain e
  match base.ident? with
  | none => refuse .notArrayName e.span
  | some array =>
    match indices.find? (Linear.ofExpr? · |>.isNone) with
    | some index =>
      if c.strict then refuse (.nonAffineSubscript (c.symbols.name array)) index.span
      else one c ⟨array, isWrite, some (indices.map Linear.ofExpr?), false, e.span⟩
    | none => one c ⟨array, isWrite, some (indices.map Linear.ofExpr?), false, e.span⟩

def callEffects (c : Context) (span : Span) : List Symbol → Result
  | [] => .ok []
  | x :: xs => do
    return (← scalar c x false span) ++ (← scalar c x true span) ++ (← callEffects c span xs)

variable (c : Context)

mutual

def ofExpr : Expr → Result
  | .int .. | .float .. | .char .. | .str .. | .sizeOfType _ | .sizeOf .. => .ok []
  | .ident x s => if c.symbols.kind? x = some .function then .ok [] else scalar c x false s
  | .field o m _ s => do return (← ofOwner o) ++ (← scalar c m false s)
  | .subscript b i s => do
    return (← element c (.subscript b i s) false) ++ (← ofIndices b) ++ (← ofExpr i)
  | .call f args s => do
    match f.ident? with
    | none => refuse .functionPointer f.span
    | some x =>
      return (← ofExprs args) ++ (← callEffects c s (c.calls.touchedBy (c.symbols.name x)))
  | .unary op e s =>
    match op with
    | .plus | .neg | .not | .complement => ofExpr e
    | .preIncr | .preDecr | .postIncr | .postDecr => do return (← ofExpr e) ++ (← ofTarget e)
    | .addressOf => ofAddress e
    | .deref => refuse .dereference s
  | .binary _ l r _ => do return (← ofExpr l) ++ (← ofExpr r)
  | .assign op l r _ => do
    let target ← ofTarget l
    let old ← match op with
      | .plain => pure []
      | .compound _ => ofExpr l
    return target ++ old ++ (← ofExpr r)
  | .conditional t y n _ => do return (← ofExpr t) ++ (← ofExpr y) ++ (← ofExpr n)
  | .cast _ e _ => ofExpr e
  | .comma es _ => ofExprs es

def ofExprs : List Expr → Result
  | [] => .ok []
  | e :: es => do return (← ofExpr e) ++ (← ofExprs es)

def ofIndices : Expr → Result
  | .subscript b i _ => do return (← ofIndices b) ++ (← ofExpr i)
  | _ => .ok []

def ofTarget : Expr → Result
  | .ident x s => scalar c x true s
  | .field o m _ s => do return (← ofOwner o) ++ (← scalar c m true s)
  | .subscript b i s => do
    return (← element c (.subscript b i s) true) ++ (← ofIndices b) ++ (← ofExpr i)
  | .unary .deref _ s => refuse .writeThroughPointer s
  | e => refuse .assignmentTarget e.span

/-- The owner of a member is read, whatever is done to the member. -/
def ofOwner : Expr → Result
  | .ident x s => scalar c x false s
  | .subscript b i s => do
    return (← element c (.subscript b i s) false) ++ (← ofIndices b) ++ (← ofExpr i)
  | e => refuse .complexOwner e.span

def ofAddress : Expr → Result
  | .ident .. => .ok []
  | .subscript b i _ => do return (← ofExpr i) ++ (← ofAddress b)
  | .field o _ _ _ => ofAddress o
  | e => refuse .complexAddress e.span

end

def ofDeclarator (d : Declarator) : Result := do
  if d.pointer then refuse (.pointerDeclaration (c.symbols.name d.symbol)) d.span
  else
    return (← ofExprs c (d.dims.filterMap id)) ++
      (← one c ⟨d.symbol, true, none, d.storage == .automatic, d.span⟩) ++
      (← ofExprs c ((d.init.map Initializer.exprs).getD []))

def ofDeclarators : List Declarator → Result
  | [] => .ok []
  | d :: ds => do return (← ofDeclarator c d) ++ (← ofDeclarators ds)

def ofStatementExpr (e : Expr) (span : Span) : Result :=
  match e with
  | .assign .. | .call .. => ofExpr c e
  | .unary op _ _ => if op.isIncrement then ofExpr c e else refuse .expressionStatement span
  | _ => refuse .expressionStatement span

end Touch

structure TouchGroup where
  loops : List LoopId
  topLevel : Nat
  touches : List Touch

structure Trail where
  groups : List TouchGroup
  loops : IndexMap CountedLoop
  topLevel : Nat

namespace Trail

def empty : Trail := ⟨[], .empty, 0⟩

def add (t : Trail) (nest : List CountedLoop) (touches : List Touch) : Trail :=
  { t with groups := t.groups ++ [⟨nest.map (·.id), t.topLevel, touches⟩] }

variable (c : Touch.Context)

def contextIn (nest : List CountedLoop) : Touch.Context := { c with indices := nest.map (·.index) }

mutual

def walk (nest : List CountedLoop) : Stmt → Trail → Except Unsupported Trail
  | .null _, t => .ok t
  | .decl ds _, t => do return t.add nest (← Touch.ofDeclarators (contextIn c nest) ds)
  | .expr e s, t => do return t.add nest (← Touch.ofStatementExpr (contextIn c nest) e s.span)
  | .compound ss _, t => walkAll nest ss t
  | .branch cond yes none _, t => do
    walk nest yes (t.add nest (← Touch.ofExpr (contextIn c nest) cond))
  | .branch cond yes (some no) _, t => do
    walk nest no (← walk nest yes (t.add nest (← Touch.ofExpr (contextIn c nest) cond)))
  | .forLoop h b s, t =>
    match CountedLoop.ofHeader? h with
    | none => .error ⟨.loopHeader, s.span⟩
    | some l =>
      let t := { t with loops := t.loops.insert h.id l }
      if nest.isEmpty then
        match b with
        | .compound ss _ => walkNumbered [l] 0 ss t
        | b => walk [l] b { t with topLevel := 0 }
      else walk (nest ++ [l]) b t
  | s, _ => .error ⟨.statement s.describe, s.span⟩

def walkAll (nest : List CountedLoop) : List Stmt → Trail → Except Unsupported Trail
  | [], t => .ok t
  | s :: ss, t => do walkAll nest ss (← walk nest s t)

/-- The walk through the statements that the positions of accesses refer to. -/
def walkNumbered (nest : List CountedLoop) (k : Nat) : List Stmt → Trail →
    Except Unsupported Trail
  | [], t => .ok t
  | s :: ss, t => do walkNumbered nest (k + 1) ss (← walk nest s { t with topLevel := k })

end

def placed (t : Trail) : List (Nat → Access) :=
  (t.groups.zipIdx 1).flatMap fun (g, statement) => g.touches.map fun touch order =>
    { touch with loops := g.loops, statement, topLevel := g.topLevel, order }

def accesses (t : Trail) : List Access := t.placed.zipIdx.map fun (a, order) => a order

end Trail

structure AccessSet where
  accesses : List Access
  loops : IndexMap CountedLoop

structure Collector where
  symbols : SymbolTable
  calls : CallSummary
  config : Config
  cancelled : Bool := false

namespace Collector

def context (c : Collector) : Touch.Context := ⟨c.symbols, c.calls, c.config.strictSubscripts, []⟩

def collect (c : Collector) (stmts : List Stmt) : Except AnalysisError AccessSet := do
  if c.cancelled then throw .cancelled
  let trail ← (Trail.walkNumbered c.context [] 0 stmts .empty).mapError .unsupported
  let accesses := trail.accesses
  if let some limit := c.config.maxAccesses then
    if limit < accesses.length then throw (.invalid (.tooManyAccesses accesses.length limit))
  return ⟨accesses, trail.loops⟩

end Collector

end LoopLegality

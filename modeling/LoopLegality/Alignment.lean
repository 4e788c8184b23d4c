import LoopLegality.IndexMap
import LoopLegality.Stmt

namespace LoopLegality

abbrev Alignment := List (Symbol × Symbol)

namespace Alignment

def when (b : Bool) (a : Option Alignment) : Option Alignment := if b then a else none

def append? (a b : Option Alignment) : Option Alignment := do return (← a) ++ (← b)

def optional? {α : Type} (f : α → α → Option Alignment) : Option α → Option α → Option Alignment
  | none, none => some []
  | some a, some b => f a b
  | _, _ => none

def list? {α : Type} (f : α → α → Option Alignment) : List α → List α → Option Alignment
  | [], [] => some []
  | a :: as, b :: bs => append? (f a b) (list? f as bs)
  | _, _ => none

/-- The map from the second bindings to the first, if it maps each to one and no two to the
same. -/
def renaming? : Alignment → IndexMap Symbol → Option (IndexMap Symbol)
  | [], m => some m
  | (x, y) :: rest, m =>
    match m.get? y with
    | some x' => if x = x' then renaming? rest m else none
    | none => if m.values.contains x then none else renaming? rest (m.insert y x)

end Alignment

mutual

def Expr.align? : Expr → Expr → Option Alignment
  | .int a _, .int b _ => Alignment.when (a == b) (some [])
  | .float a _, .float b _ => Alignment.when (a == b) (some [])
  | .char a _, .char b _ => Alignment.when (a == b) (some [])
  | .str a _, .str b _ => Alignment.when (a == b) (some [])
  | .ident x _, .ident y _ => some [(x, y)]
  | .field o x a _, .field p y b _ =>
    Alignment.when (a == b) (Alignment.append? (some [(x, y)]) (o.align? p))
  | .subscript a i _, .subscript b j _ => Alignment.append? (a.align? b) (i.align? j)
  | .call f as _, .call g bs _ => Alignment.append? (f.align? g) (Expr.alignAll? as bs)
  | .unary p a _, .unary q b _ => Alignment.when (p == q) (a.align? b)
  | .binary p a c _, .binary q b d _ =>
    Alignment.when (p == q) (Alignment.append? (a.align? b) (c.align? d))
  | .assign p a c _, .assign q b d _ =>
    Alignment.when (p == q) (Alignment.append? (a.align? b) (c.align? d))
  | .conditional a c e _, .conditional b d f _ =>
    Alignment.append? (a.align? b) (Alignment.append? (c.align? d) (e.align? f))
  | .cast t a _, .cast u b _ => Alignment.when (t == u) (a.align? b)
  | .sizeOfType _, .sizeOfType _ => some []
  | .sizeOf a _, .sizeOf b _ => a.align? b
  | .comma as _, .comma bs _ => Expr.alignAll? as bs
  | _, _ => none

def Expr.alignAll? : List Expr → List Expr → Option Alignment
  | [], [] => some []
  | a :: as, b :: bs => Alignment.append? (a.align? b) (Expr.alignAll? as bs)
  | _, _ => none

end

mutual

def Initializer.align? : Initializer → Initializer → Option Alignment
  | .expr a, .expr b => a.align? b
  | .list as, .list bs => Initializer.alignAll? as bs
  | _, _ => none

def Initializer.alignAll? : List Initializer → List Initializer → Option Alignment
  | [], [] => some []
  | a :: as, b :: bs => Alignment.append? (a.align? b) (Initializer.alignAll? as bs)
  | _, _ => none

end

def Declarator.align? (d e : Declarator) : Option Alignment :=
  Alignment.when (d.pointer == e.pointer) <|
    Alignment.append? (some [(d.symbol, e.symbol)]) <|
      Alignment.append? (Alignment.list? (Alignment.optional? Expr.align?) d.dims e.dims)
        (Alignment.optional? Initializer.align? d.init e.init)

def ForInit.align? : ForInit → ForInit → Option Alignment
  | .expr a _, .expr b _ => a.align? b
  | .decl d, .decl e => Alignment.list? Declarator.align? d.declarators e.declarators
  | .null _, .null _ => some []
  | _, _ => none

namespace ForHeader

def align? (h k : ForHeader) : Option Alignment :=
  Alignment.append? (Alignment.optional? ForInit.align? h.init k.init) <|
    Alignment.append? (Alignment.optional? Expr.align? h.cond k.cond)
      (Alignment.optional? Expr.align? h.incr k.incr)

/-- The renaming that turns the clauses of `k` into those of `h`. -/
def unify? (h k : ForHeader) : Option (IndexMap Symbol) := do (← h.align? k).renaming? .empty

end ForHeader

end LoopLegality

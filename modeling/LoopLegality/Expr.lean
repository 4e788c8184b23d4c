import LoopLegality.Operator
import LoopLegality.Symbol
import LoopLegality.Word

namespace LoopLegality

/-- An expression whose names are resolved to bindings. A floating-point literal is its
binary64 pattern; character and string literals are the raw text between the quotes. -/
inductive Expr where
  | int (value : Int) (span : Span)
  | float (bits : Nat) (span : Span)
  | char (text : String) (span : Span)
  | str (text : String) (span : Span)
  | ident (symbol : Symbol) (span : Span)
  | field (owner : Expr) (member : Symbol) (arrow : Bool) (span : Span)
  | subscript (base index : Expr) (span : Span)
  | call (callee : Expr) (args : List Expr) (span : Span)
  | unary (op : UnaryOp) (operand : Expr) (span : Span)
  | binary (op : BinaryOp) (lhs rhs : Expr) (span : Span)
  | assign (op : AssignOp) (lhs rhs : Expr) (span : Span)
  | conditional (cond yes no : Expr) (span : Span)
  | cast (type : String) (operand : Expr) (span : Span)
  | sizeOfType (span : Span)
  | sizeOf (operand : Expr) (span : Span)
  | comma (items : List Expr) (span : Span)
deriving Inhabited

namespace Expr

def span : Expr → Span
  | int _ s | float _ s | char _ s | str _ s | ident _ s | field _ _ _ s | subscript _ _ s
  | call _ _ s | unary _ _ s | binary _ _ _ s | assign _ _ _ s | conditional _ _ _ s
  | cast _ _ s | sizeOfType s | sizeOf _ s | comma _ s => s

def withSpan (s : Span) : Expr → Expr
  | int n _ => int n s
  | float b _ => float b s
  | char t _ => char t s
  | str t _ => str t s
  | ident x _ => ident x s
  | field o m a _ => field o m a s
  | subscript b i _ => subscript b i s
  | call f as _ => call f as s
  | unary op e _ => unary op e s
  | binary op l r _ => binary op l r s
  | assign op l r _ => assign op l r s
  | conditional c t e _ => conditional c t e s
  | cast t e _ => cast t e s
  | sizeOfType _ => sizeOfType s
  | sizeOf e _ => sizeOf e s
  | comma es _ => comma es s

def ident? : Expr → Option Symbol
  | ident x _ => some x
  | _ => none

theorem ident?_eq_some {e : Expr} {x : Symbol} (h : e.ident? = some x) :
    ∃ s, e = .ident x s := by
  cases e with
  | ident y s =>
    cases h
    exact ⟨s, rfl⟩
  | _ => cases h

/-- The value of an integer literal under any number of signs. -/
def int? : Expr → Option Int
  | int n _ => some n
  | unary .neg e _ => e.int?.bind Word.neg?
  | unary .plus e _ => e.int?
  | _ => none

/-- The array of `a[i][j]` and the number of its subscripts, which is positive. -/
def subscriptChain? : Expr → Option (Symbol × Nat)
  | subscript base _ _ =>
    match base with
    | ident x _ => some (x, 1)
    | base => base.subscriptChain?.map fun c => (c.1, c.2 + 1)
  | _ => none

mutual

/-- The expression and all expressions inside it, outer before inner and left before right. -/
def nodes : Expr → List Expr
  | e@(field o _ _ _) => e :: o.nodes
  | e@(subscript b i _) => e :: (b.nodes ++ i.nodes)
  | e@(call f as _) => e :: (f.nodes ++ nodesOf as)
  | e@(unary _ x _) => e :: x.nodes
  | e@(binary _ l r _) => e :: (l.nodes ++ r.nodes)
  | e@(assign _ l r _) => e :: (l.nodes ++ r.nodes)
  | e@(conditional c t f _) => e :: (c.nodes ++ t.nodes ++ f.nodes)
  | e@(cast _ x _) => e :: x.nodes
  | e@(sizeOf x _) => e :: x.nodes
  | e@(comma es _) => e :: nodesOf es
  | e => [e]

def nodesOf : List Expr → List Expr
  | [] => []
  | e :: es => e.nodes ++ nodesOf es

end

theorem mem_nodes_self (e : Expr) : e ∈ e.nodes := by
  cases e <;> simp [nodes]

mutual

/-- The expression with its variables renamed. Member names stay. -/
def rename (f : Symbol → Symbol) : Expr → Expr
  | ident x s => ident (f x) s
  | field o m a s => field (o.rename f) m a s
  | subscript b i s => subscript (b.rename f) (i.rename f) s
  | call g as s => call (g.rename f) (renameAll f as) s
  | unary op e s => unary op (e.rename f) s
  | binary op l r s => binary op (l.rename f) (r.rename f) s
  | assign op l r s => assign op (l.rename f) (r.rename f) s
  | conditional c t e s => conditional (c.rename f) (t.rename f) (e.rename f) s
  | cast t e s => cast t (e.rename f) s
  | sizeOf e s => sizeOf (e.rename f) s
  | comma es s => comma (renameAll f es) s
  | e => e

def renameAll (f : Symbol → Symbol) : List Expr → List Expr
  | [] => []
  | e :: es => e.rename f :: renameAll f es

end

end Expr

end LoopLegality

import LoopLegality.Expr

namespace LoopLegality

inductive Initializer where
  | expr (e : Expr)
  | list (items : List Initializer)
deriving Inhabited

/-- How long the object of a declaration lives: for one visit of its block, or for the run. -/
inductive Storage where
  | automatic
  | permanent
  | elsewhere
deriving DecidableEq, Inhabited, Repr

structure Declarator where
  symbol : Symbol
  dims : List (Option Expr)
  pointer : Bool
  init : Option Initializer
  storage : Storage
  span : Span
deriving Inhabited

structure Declaration where
  declarators : List Declarator
  span : Span
deriving Inhabited

abbrev LoopId := Nat

def LoopId.text (id : LoopId) : String := s!"L{id}"

inductive ForInit where
  | decl (d : Declaration)
  | expr (e : Expr) (span : Span)
  | null (span : Span)
deriving Inhabited

structure ForHeader where
  id : LoopId
  init : Option ForInit
  cond : Option Expr
  incr : Option Expr
deriving Inhabited

structure Site where
  span : Span
  pragmas : List String := []
deriving DecidableEq, Inhabited, Repr

inductive Stmt where
  | decl (ds : List Declarator) (site : Site)
  | expr (e : Expr) (site : Site)
  | forLoop (header : ForHeader) (body : Stmt) (site : Site)
  | compound (stmts : List Stmt) (site : Site)
  | null (site : Site)
  | branch (cond : Expr) (yes : Stmt) (no : Option Stmt) (site : Site)
  | ret (value : Option Expr) (site : Site)
  | whileLoop (cond : Expr) (body : Stmt) (site : Site)
  | doWhile (body : Stmt) (cond : Expr) (site : Site)
  | switch (cond : Expr) (body : Stmt) (site : Site)
  | caseLabel (value : Expr) (site : Site)
  | defaultLabel (site : Site)
  | break (site : Site)
  | continue (site : Site)
  | goto (label : String) (site : Site)
  | label (name : String) (body : Stmt) (site : Site)
deriving Inhabited

structure ForLoop where
  header : ForHeader
  body : Stmt
  site : Site
deriving Inhabited

structure Function where
  name : String
  symbol : Symbol
  params : List Declarator
  body : Stmt
  span : Span
deriving Inhabited

structure Program where
  functions : List Function
  globals : List Declaration
  symbols : SymbolTable
deriving Inhabited

namespace Stmt

def site : Stmt → Site
  | decl _ s | expr _ s | forLoop _ _ s | compound _ s | null s | branch _ _ _ s | ret _ s
  | whileLoop _ _ s | doWhile _ _ s | switch _ _ s | caseLabel _ s | defaultLabel s | .break s
  | .continue s | goto _ s | label _ _ s => s

def span (s : Stmt) : Span := s.site.span

def describe : Stmt → String
  | decl .. => "declaration"
  | expr .. => "expression statement"
  | forLoop .. => "for loop"
  | compound .. => "compound statement"
  | null _ => "null statement"
  | branch .. => "if statement"
  | ret .. => "return statement"
  | whileLoop .. => "while loop"
  | doWhile .. => "do-while loop"
  | switch .. => "switch statement"
  | caseLabel .. => "case label"
  | defaultLabel _ => "default label"
  | .break _ => "break statement"
  | .continue _ => "continue statement"
  | goto .. => "goto statement"
  | label .. => "labeled statement"

def forLoop? : Stmt → Option ForLoop
  | forLoop header body site => some ⟨header, body, site⟩
  | _ => none

/-- The statements of a block; any other statement is a block of one. -/
def statements : Stmt → List Stmt
  | compound ss _ => ss
  | s => [s]

def isEmpty : Stmt → Bool
  | null _ => true
  | compound ss _ => ss.isEmpty
  | _ => false

end Stmt

def ForLoop.stmt (l : ForLoop) : Stmt := .forLoop l.header l.body l.site

def Function.statements (f : Function) : List Stmt := f.body.statements

def Program.function? (p : Program) (name : String) : Option Function :=
  p.functions.find? (·.name == name)

end LoopLegality

import LoopLegality.Symbol

namespace LoopLegality

abbrev Frame := List (String × Symbol)

/-- The open blocks, innermost first, around the names of the whole file. Members of
structures live apart from variables, one binding for each spelling. -/
structure Scopes where
  table : SymbolTable
  blocks : List Frame
  file : Frame
  members : Frame
deriving DecidableEq, Inhabited, Repr

namespace Scopes

def empty : Scopes := ⟨.empty, [], [], []⟩

def depth (s : Scopes) : Nat := s.blocks.length

def push (s : Scopes) : Scopes := { s with blocks := [] :: s.blocks }

/-- The file itself is never left. -/
def pop (s : Scopes) : Scopes := { s with blocks := s.blocks.tail }

def lookup? (s : Scopes) (name : String) : Option Symbol :=
  (s.blocks ++ [s.file]).findSome? (·.lookup name)

def declare (s : Scopes) (name : String) (kind : Symbol.Kind) (span : Span) :
    Symbol × Scopes :=
  let (symbol, table) := s.table.declare ⟨name, kind, span, s.depth⟩
  match s.blocks with
  | [] => (symbol, { s with table, file := (name, symbol) :: s.file })
  | frame :: frames => (symbol, { s with table, blocks := ((name, symbol) :: frame) :: frames })

/-- The binding of a name in use, made for the whole file if there is none. -/
def resolve (s : Scopes) (name : String) (kind : Symbol.Kind) : Symbol × Scopes :=
  match s.lookup? name with
  | some symbol => (symbol, s)
  | none =>
    let (symbol, table) := s.table.declare ⟨name, kind, .none, 0⟩
    (symbol, { s with table, file := (name, symbol) :: s.file })

def member (s : Scopes) (name : String) : Symbol × Scopes :=
  match s.members.lookup name with
  | some symbol => (symbol, s)
  | none =>
    let (symbol, table) := s.table.declare ⟨name, .field, .none, 0⟩
    (symbol, { s with table, members := (name, symbol) :: s.members })

def refine (s : Scopes) (symbol : Symbol) (kind : Symbol.Kind) : Scopes :=
  { s with table := s.table.refine symbol kind }

end Scopes

end LoopLegality

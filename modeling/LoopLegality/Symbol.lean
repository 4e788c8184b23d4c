import LoopLegality.Span

namespace LoopLegality

/-- A binding, as its position in the table of all bindings. Two declarations of one spelling
are two bindings. -/
abbrev Symbol := Nat

namespace Symbol

inductive Kind where
  | scalar
  | array (rank : Nat)
  | pointer
  | field
  | function
  | implicit
deriving DecidableEq, Inhabited, Repr

structure Info where
  name : String
  kind : Kind
  span : Span
  depth : Nat
deriving DecidableEq, Inhabited, Repr

end Symbol

structure SymbolTable where
  infos : Array Symbol.Info
deriving DecidableEq, Inhabited, Repr

namespace SymbolTable

def empty : SymbolTable := ⟨#[]⟩

def size (t : SymbolTable) : Nat := t.infos.size

def info? (t : SymbolTable) (s : Symbol) : Option Symbol.Info := t.infos[s]?

def name (t : SymbolTable) (s : Symbol) : String := ((t.info? s).map (·.name)).getD "<?>"

def kind? (t : SymbolTable) (s : Symbol) : Option Symbol.Kind := (t.info? s).map (·.kind)

def rank? (t : SymbolTable) (s : Symbol) : Option Nat :=
  match t.kind? s with
  | some (.array rank) => some rank
  | _ => none

def declare (t : SymbolTable) (i : Symbol.Info) : Symbol × SymbolTable :=
  (t.size, ⟨t.infos.push i⟩)

/-- A binding that was never declared takes the kind that a use shows, once. -/
def refine (t : SymbolTable) (s : Symbol) (kind : Symbol.Kind) : SymbolTable :=
  match t.info? s with
  | some i => if i.kind = .implicit then ⟨t.infos.setIfInBounds s { i with kind }⟩ else t
  | none => t

def spelled (t : SymbolTable) (name : String) : List Symbol :=
  (List.range t.size).filter fun s => (t.info? s).any (·.name == name)

def first? (t : SymbolTable) (name : String) : Option Symbol := (t.spelled name).head?

end SymbolTable

end LoopLegality

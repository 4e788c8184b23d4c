import LoopLegality.Alignment
import LoopLegality.Effect
import LoopLegality.Nest
import LoopLegality.Rename

namespace LoopLegality

/-- Two loops in a row, with the renaming that turns the second header into the first. -/
structure Fusion where
  first : ForLoop
  second : ForLoop
  names : IndexMap Symbol

namespace Fusion

def rename (f : Fusion) (x : Symbol) : Symbol := (f.names.get? x).getD x

def ofSelection? (s : Selection) : Option Fusion := do
  let first ← s.stmt.forLoop?
  let second ← (← s.next?).forLoop?
  return ⟨first, second, ← first.header.unify? second.header⟩

def span (f : Fusion) : Span := f.first.site.span.merge f.second.site.span

/-- The first header over both bodies, with the second body in the names of the first. -/
def fused (f : Fusion) : ForLoop where
  header := f.first.header
  body := .compound
    (f.first.body.statements ++ f.second.body.statements.map (Stmt.rename f.rename))
    ⟨f.span, []⟩
  site := ⟨f.span, f.first.site.pragmas⟩

def declaredAtTop (body : Stmt) : List Symbol :=
  body.statements.flatMap fun s => match s with
    | .decl ds _ => ds.map (·.symbol)
    | _ => []

/-- The uses in the second body that a declaration in a scope around them would capture. A
binding declared deeper in the second body keeps its own scope. -/
def exposedUses (f : Fusion) : List Symbol :=
  f.second.body.referenced.filter fun x =>
    !f.second.body.declared.contains x || (declaredAtTop f.second.body).contains x

/-- A name declared in the first body that a use in the second body would resolve to once the
bodies share a scope. -/
def nameConflict? (f : Fusion) (symbols : SymbolTable) : Option String :=
  (f.first.body.declared.map symbols.name).find? fun name =>
    f.exposedUses.any (symbols.name · == name)

end Fusion

end LoopLegality

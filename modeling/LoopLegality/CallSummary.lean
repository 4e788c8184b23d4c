import LoopLegality.Config
import LoopLegality.Effect

namespace LoopLegality

def Expr.baseVariable? : Expr → Option Symbol
  | .ident x _ => some x
  | .subscript b _ _ => b.baseVariable?
  | .field o _ _ _ => o.baseVariable?
  | _ => none

def SymbolTable.isArrayOrPointer (t : SymbolTable) (x : Symbol) : Bool :=
  match t.kind? x with
  | some (.array _) | some .pointer => true
  | _ => false

def Expr.escaping (t : SymbolTable) : Expr → List Symbol
  | .unary .addressOf e _ => e.baseVariable?.toList
  | .call _ args _ => (args.filterMap Expr.ident?).filter t.isArrayOrPointer
  | _ => []

def Node.escaping (t : SymbolTable) : Node → List Symbol
  | .declarator _ => []
  | .expr e => e.escaping t

/-- The variables whose address escapes: operands of `&`, and arrays and pointers passed by
name. -/
def Function.addressTaken (f : Function) (t : SymbolTable) : List Symbol :=
  ascending (f.body.nodes.flatMap (Node.escaping t))

/-- What a call may touch besides its arguments: nothing if the function is on the list,
otherwise everything exposed. -/
structure CallSummary where
  whitelist : List String
  exposed : List Symbol
deriving DecidableEq, Inhabited, Repr

namespace CallSummary

def touchedBy (s : CallSummary) (name : String) : List Symbol :=
  if s.whitelist.contains name then [] else s.exposed

/-- The variables that other functions see: those whose address escapes and the globals in
use. -/
def ofFunction (p : Program) (f : Function) (config : Config) : CallSummary :=
  let globals := (p.globals.flatMap (·.declarators)).map (·.symbol)
  let objects := globals.filter fun x => p.symbols.kind? x != some .function
  let used := f.body.referenced
  ⟨config.whitelist, ascending (f.addressTaken p.symbols ++ objects.filter used.contains)⟩

end CallSummary

end LoopLegality

import LoopLegality.Linear
import LoopLegality.Stmt

namespace LoopLegality

/-- What an expression does to one binding: a read or a write of it, or of an element with the
given subscripts. A subscript without a linear form is missing. -/
structure Touch where
  symbol : Symbol
  isWrite : Bool
  subscripts : Option (List (Option Linear))
  isDeclaration : Bool
  span : Span

/-- A touch in its place: the loops around it, outermost first, the number of its statement,
its position in the body of the outermost loop, and its position among all. -/
structure Access extends Touch where
  loops : List LoopId
  statement : Nat
  topLevel : Nat
  order : Nat

inductive Dependence.Kind where
  | flow | anti | output | input
deriving DecidableEq, Inhabited, Repr

namespace Dependence.Kind

def ofWrites (source sink : Bool) : Kind :=
  match source, sink with
  | true, false => flow
  | false, true => anti
  | true, true => output
  | false, false => input

def isTrue : Kind → Bool
  | input => false
  | _ => true

def name : Kind → String
  | flow => "flow"
  | anti => "anti"
  | output => "output"
  | input => "input"

def shortName : Kind → String
  | flow => "RAW"
  | anti => "WAR"
  | output => "WAW"
  | input => "RAR"

end Dependence.Kind

namespace Access

def isRead (a : Access) : Bool := !a.isWrite

def isScalar (a : Access) : Bool := a.subscripts.isNone

def commonPrefix : List LoopId → List LoopId → Nat
  | a :: as, b :: bs => if a = b then commonPrefix as bs + 1 else 0
  | _, _ => 0

def commonLoops (a b : Access) : Nat := commonPrefix a.loops b.loops

/-- Whether `a` comes first where both run in one iteration. A statement reads before it
writes. -/
def precedes (a b : Access) : Bool :=
  a.statement < b.statement || (a.statement == b.statement && a.isRead && b.isWrite)

def kindTo (a b : Access) : Dependence.Kind := .ofWrites a.isWrite b.isWrite

def linearSubscripts? (a : Access) : Option (List Linear) := do (← a.subscripts).mapM id

end Access

end LoopLegality

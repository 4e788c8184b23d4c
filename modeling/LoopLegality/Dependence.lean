import LoopLegality.Access
import LoopLegality.Direction
import LoopLegality.Error

namespace LoopLegality

/-- The source must run before the sink where their iterations compare as the vector says,
which has an entry for each loop around both. -/
structure Dependence where
  source : Access
  sink : Access
  direction : List Direction

namespace Dependence

def kind (d : Dependence) : Kind := d.source.kindTo d.sink

/-- The depth of the loop that carries the dependence, counted from one, or zero if none
does. -/
def level (d : Dependence) : Nat :=
  match d.direction.findIdx? (· != .eq) with
  | some k => k + 1
  | none => 0

def isCarried (d : Dependence) : Bool := 0 < d.level

def directionAt? (d : Dependence) : Nat → Option Direction
  | 0 => none
  | k + 1 => d.direction[k]?

def description (d : Dependence) (symbols : SymbolTable) : String :=
  s!"{d.kind.name} dependence ({d.kind.shortName}) on '{symbols.name d.source.symbol}' " ++
    s!"from line {d.source.span.first.line} to line {d.sink.span.first.line} " ++
    Direction.vectorText d.direction

def text (d : Dependence) : String :=
  (if d.isCarried then "Loop-carried" else "Loop-independent") ++
    s!" {d.kind.name} dependence from line {d.source.span.first.line} " ++
    s!"to line {d.sink.span.first.line} " ++ Direction.vectorText d.direction

def isTrueAt (d : Dependence) (level : Nat) : Bool := d.kind.isTrue && d.level == level

/-- Carried by the outermost loop, with the source possibly in an earlier iteration. -/
def runsForward (d : Dependence) : Bool :=
  d.isTrueAt 1 && (d.directionAt? 1).any Direction.mayBeForward

end Dependence

namespace Direction

/-- The first entry other than `=` lets the source run first. -/
def isOrdered : List Direction → Bool
  | [] => true
  | .eq :: ds => isOrdered ds
  | d :: _ => d.mayBeForward

def swap (i j : Nat) (ds : List Direction) : Except AnalysisError (List Direction) :=
  match ds[i]?, ds[j]? with
  | some a, some b => .ok ((ds.set i b).set j a)
  | _, _ => .error (.invalid (.swapOutOfRange i j ds.length))

end Direction

/-- Whether every dependence still runs forward when the loops at two positions change
places. -/
def interchangeable (i j : Nat) : List Dependence → Except AnalysisError Bool
  | [] => .ok true
  | d :: ds =>
    if d.kind.isTrue && Direction.isOrdered d.direction then do
      if Direction.isOrdered (← Direction.swap i j d.direction) then interchangeable i j ds
      else return false
    else interchangeable i j ds

end LoopLegality

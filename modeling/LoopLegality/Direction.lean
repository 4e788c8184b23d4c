namespace LoopLegality

/-- How the iteration of the source of a dependence compares with that of its sink: `lt` if
the source runs in an earlier one. -/
inductive Direction where
  | lt | le | eq | gt | ge | any
deriving DecidableEq, Inhabited, Repr

namespace Direction

def char : Direction → Char
  | lt => '<' | le => '≤' | eq => '=' | gt => '>' | ge => '≥' | any => '*'

def mayBeForward : Direction → Bool
  | lt | le | any => true
  | _ => false

def mayBeBackward : Direction → Bool
  | gt | ge | any => true
  | _ => false

def mayBeEqual : Direction → Bool
  | lt | gt => false
  | _ => true

/-- The least direction that admits all that either admits. -/
def union (d e : Direction) : Direction :=
  match d.mayBeForward || e.mayBeForward, d.mayBeEqual || e.mayBeEqual,
    d.mayBeBackward || e.mayBeBackward with
  | true, _, true => any
  | true, true, false => le
  | true, false, false => lt
  | false, true, true => ge
  | false, false, true => gt
  | false, _, false => eq

def ofDistance (n : Int) : Direction := if n < 0 then gt else if n = 0 then eq else lt

def vectorText (ds : List Direction) : String :=
  "[" ++ ", ".intercalate (ds.map fun d => d.char.toString) ++ "]"

end Direction

end LoopLegality

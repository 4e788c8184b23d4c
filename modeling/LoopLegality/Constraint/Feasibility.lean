import LoopLegality.Constraint.Tighten

namespace LoopLegality

inductive Feasibility where
  | feasible
  | infeasible
  | unknown
deriving DecidableEq, Inhabited, Repr

namespace Feasibility

def mayHold (f : Feasibility) : Bool := f != infeasible

end Feasibility

/-- A test that gave up leaves the question open. -/
def Stop.answer : Except Stop Feasibility → Except Overflow Feasibility
  | .ok f => .ok f
  | .error .gaveUp => .ok .unknown
  | .error .overflow => .error ⟨⟩

namespace Row

/-- An equation with integer solutions has a right side that the common factor of its
coefficients divides. -/
def gcdTest (r : Row) : Except Overflow Bool := do
  let g ← r.coeffs.foldlM Word.gcd 0
  return if g = 0 then r.rhs = 0 else r.rhs % g = 0

/-- The row with an unknown replaced by what an equation says of it. The equation has
coefficient one or minus one there. -/
def substitute? (equation : Row) (v : Nat) (r : Row) : Option Row := do
  let factor ← Word.mul? (r.coeff v) (equation.coeff v)
  if factor = 0 then return r
  let step (c e : Int) : Option Int := do Word.sub? c (← Word.mul? factor e)
  return ⟨← (r.coeffs.zip equation.coeffs).mapM fun (c, e) => step c e,
    ← step r.rhs equation.rhs⟩

def unitUnknown (r : Row) : Except Overflow (Option Nat) :=
  r.coeffs.zipIdx.findSomeM? fun (c, v) => return if (← Word.abs c) = 1 then some v else none

def dropRepeats : List Row → List Row
  | r :: s :: rs => if r = s then dropRepeats (s :: rs) else r :: dropRepeats (s :: rs)
  | rs => rs

def normalize (rs : List Row) : List Row := dropRepeats (rs.mergeSort le)

end Row

namespace ConstraintSystem

def maxRows : Nat := 4096

def solvable (equations : List Row) : Except Overflow (Option (Nat × Row × Nat)) :=
  equations.zipIdx.findSomeM? fun (r, k) => return (← r.unitUnknown).map fun v => (k, r, v)

/-- The list without position `k`, which its last element takes. -/
def swapRemove {α : Type} (k : Nat) (xs : List α) : List α :=
  match xs.getLast? with
  | none => []
  | some last => (xs.set k last).dropLast

def solveUnits : Nat → List Row → List Row → Except Stop (List Row × List Row)
  | 0, equations, rows => .ok (equations, rows)
  | n + 1, equations, rows => do
    match ← Stop.unchecked (solvable equations) with
    | none => return (equations, rows)
    | some (k, equation, v) =>
      let equations ← Stop.checked ((swapRemove k equations).mapM (Row.substitute? equation v))
      let rows ← Stop.checked (rows.mapM (Row.substitute? equation v))
      solveUnits n equations rows

def countWhere (p : Row → Bool) (rows : List Row) : Nat := (rows.filter p).length

/-- The unknown whose elimination makes the fewest rows, the first of equals. -/
def cheapest? (vars : Nat) (rows : List Row) : Option Nat :=
  let cost? (v : Nat) : Option (Nat × Nat) :=
    let pos := countWhere (fun r => 0 < r.coeff v) rows
    let neg := countWhere (fun r => r.coeff v < 0) rows
    if pos + neg = 0 then none else some (pos * neg, v)
  let better (best : Option (Nat × Nat)) (c : Nat × Nat) : Option (Nat × Nat) :=
    match best with
    | none => some c
    | some b => if c.1 < b.1 then some c else some b
  (((List.range vars).filterMap cost?).foldl better none).map (·.2)

def combineAll (v : Nat) (lower : List Row) : List Row → List Row → Except Stop (List Row)
  | [], rows => .ok rows
  | p :: upper, rows => do
    let rows := rows ++ (← lower.mapM fun n => do (← RatRow.combine v p n).tighten)
    if maxRows < rows.length then throw .gaveUp
    combineAll v lower upper rows

/-- The rows after an unknown is eliminated. One bounded from one side only takes its rows
with it. -/
def eliminate (v : Nat) (rows : List Row) : Except Stop (List Row) :=
  combineAll v (rows.filter fun r => r.coeff v < 0) (rows.filter fun r => 0 < r.coeff v)
    (rows.filter fun r => r.coeff v = 0)

def eliminateAll (vars : Nat) : Nat → List Row → Except Stop Feasibility
  | 0, _ => .error .gaveUp
  | n + 1, rows =>
    if rows.any fun r => r.isTrivial && r.rhs < 0 then .ok .infeasible
    else
      let rows := Row.normalize (rows.filter (!·.isTrivial))
      match cheapest? vars rows with
      | none => .ok .feasible
      | some v => do eliminateAll vars n (← eliminate v rows)

def asInequalities? (equations : List Row) : Option (List Row) := do
  return (← equations.mapM fun r => do return [r, ← r.neg?]).flatten

/-- Equations with a unit coefficient are solved, the others must pass the divisibility test,
and elimination settles the rest. -/
def settle (s : ConstraintSystem) : Except Stop Feasibility := do
  let (equations, rows) ← solveUnits s.equations.length s.equations s.rows
  if !(← Stop.unchecked (equations.allM Row.gcdTest)) then return .infeasible
  let pairs ← Stop.checked (asInequalities? equations)
  eliminateAll s.vars (s.vars + 1) (← (pairs ++ rows).mapM fun r => (RatRow.ofRow r).tighten)

def feasibility (s : ConstraintSystem) : Except Overflow Feasibility := Stop.answer s.settle

end ConstraintSystem

end LoopLegality

import LoopLegality.Constraint.Feasibility
import LoopLegality.Direction
import LoopLegality.Error

namespace LoopLegality

/-- The conditions under which two accesses meet. Level `k` names the unknowns that hold the
index of the `k`-th common loop at the source and at the sink. -/
structure DependenceProblem where
  system : ConstraintSystem
  levels : List (Nat × Nat)
deriving DecidableEq, Inhabited

namespace DependenceProblem

def depth (p : DependenceProblem) : Nat := p.levels.length

def difference (n a b : Nat) : List Int :=
  (List.range n).map fun v => (if v = a then 1 else 0) - (if v = b then 1 else 0)

def restrict (s : ConstraintSystem) (d : Direction) (level : Nat × Nat) : ConstraintSystem :=
  let row := difference s.vars
  match d with
  | .lt => s.addLe (row level.1 level.2) (-1)
  | .le => s.addLe (row level.1 level.2) 0
  | .gt => s.addLe (row level.2 level.1) (-1)
  | .ge => s.addLe (row level.2 level.1) 0
  | .eq => s.addEq (row level.1 level.2) 0
  | .any => s

/-- The system for accesses whose iterations compare as a direction vector says. -/
def constrained (p : DependenceProblem) (ds : List Direction) : ConstraintSystem :=
  (ds.zip p.levels).foldl (fun s (d, level) => restrict s d level) p.system

def test (p : DependenceProblem) (ds : List Direction) : Except Overflow Feasibility :=
  (p.constrained ds).feasibility

/-- What may follow the entries chosen so far. A vector whose first entry other than `=` is `>`
belongs to the reverse pair. -/
def candidates (chosen : List Direction) : List Direction :=
  if chosen.all (· == .eq) then [.lt, .eq] else [.lt, .eq, .gt]

def mayHold (p : DependenceProblem) (chosen : List Direction) (n : Nat) : Except Overflow Bool :=
  return (← p.test (chosen ++ List.replicate n .any)).mayHold

/-- The vectors that extend the chosen entries by `n` and that no test rules out. -/
def refine (p : DependenceProblem) : Nat → List Direction → Except Overflow (List (List Direction))
  | 0, chosen => .ok [chosen]
  | n + 1, chosen => do
    let found ← (candidates chosen).mapM fun d => do
      if ← p.mayHold (chosen ++ [d]) n then p.refine n (chosen ++ [d]) else return []
    return found.flatten

def directions (p : DependenceProblem) : Except Overflow (List (List Direction)) := do
  if ← p.mayHold [] p.depth then p.refine p.depth [] else return []

def search (p : DependenceProblem) (cancelled : Bool) :
    Except AnalysisError (List (List Direction)) :=
  if cancelled then .error .cancelled else p.directions.mapError fun _ => .overflow

def refineTests (p : DependenceProblem) : Nat → List Direction → Except Overflow Nat
  | 0, _ => .ok 0
  | n + 1, chosen => do
    let counts ← (candidates chosen).mapM fun d => do
      if ← p.mayHold (chosen ++ [d]) n then return 1 + (← p.refineTests n (chosen ++ [d]))
      else return 1
    return counts.sum

def testCount (p : DependenceProblem) : Except Overflow Nat := do
  if ← p.mayHold [] p.depth then return 1 + (← p.refineTests p.depth []) else return 1

end DependenceProblem

end LoopLegality

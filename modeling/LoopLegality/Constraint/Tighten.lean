import LoopLegality.Constraint

namespace LoopLegality

/-- What ends a feasibility test early. Where a checked operation has no result it gives up. Where
one that nothing checks has none, the run ends. -/
inductive Stop where
  | gaveUp
  | overflow
deriving DecidableEq, Inhabited, Repr

namespace Stop

def checked {α : Type} : Option α → Except Stop α
  | some a => .ok a
  | none => .error gaveUp

def unchecked {α : Type} : Except Overflow α → Except Stop α
  | .ok a => .ok a
  | .error _ => .error overflow

end Stop

structure RatRow where
  coeffs : List Rat
  rhs : Rat
deriving DecidableEq

namespace RatRow

def ofRow (r : Row) : RatRow := ⟨r.coeffs.map fun c : Int => (c : Rat), r.rhs⟩

/-- The sum, if the steps that bring both fractions to one denominator stay inside a word. -/
def add? (a b : Rat) : Option Rat := do
  let l ← Word.mul? ((a.den / Nat.gcd a.den b.den : Nat) : Int) b.den
  let x ← Word.mul? (l / a.den) a.num
  let y ← Word.mul? (l / b.den) b.num
  let _ ← Word.add? x y
  return a + b

def denominator (r : RatRow) : Nat := (r.coeffs ++ [r.rhs]).foldl (fun l q => Nat.lcm l q.den) 1

def scaled? (l : Nat) (q : Rat) : Option Int := Word.mul? q.num (l / q.den : Nat)

def scaleAll (l : Nat) : Nat → List Rat → Except Stop (List Int × Nat)
  | g, [] => .ok ([], g)
  | g, q :: qs => do
    let c ← Stop.checked (scaled? l q)
    let (cs, g) ← scaleAll l (← Stop.unchecked (Word.gcd g c)) qs
    return (c :: cs, g)

/-- Divides by a common factor of the coefficients. An integer point satisfies the row no less
when its right side is rounded down. -/
def divideBy (g : Nat) (r : Row) : Row :=
  if 1 < g then ⟨r.coeffs.map (· / (g : Int)), r.rhs / g⟩ else r

/-- The row over the integers that the same integer points satisfy. -/
def tighten (r : RatRow) : Except Stop Row := do
  let l := r.denominator
  if ¬ Word.Fits l then throw .gaveUp
  let (coeffs, g) ← scaleAll l 0 r.coeffs
  return divideBy g ⟨coeffs, ← Stop.checked (scaled? l r.rhs)⟩

/-- The sum of two rows scaled to coefficients one and minus one of an unknown, which cancels.
`p` must have a positive and `n` a negative coefficient there. -/
def combine (v : Nat) (p n : Row) : Except Stop RatRow := do
  let wp ← Stop.unchecked (Word.abs (p.coeff v))
  let wn ← Stop.unchecked (Word.abs (n.coeff v))
  let coeffs ← Stop.checked ((p.coeffs.zip n.coeffs).mapM fun (a, b) =>
    add? (mkRat a wp) (mkRat b wn))
  let rhs ← Stop.checked (add? (mkRat p.rhs wp) (mkRat n.rhs wn))
  return ⟨coeffs.set v 0, rhs⟩

end RatRow

end LoopLegality

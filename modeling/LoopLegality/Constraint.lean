import LoopLegality.Word

namespace LoopLegality

/-- The coefficients of the unknowns and the number they are compared with. -/
structure Row where
  coeffs : List Int
  rhs : Int
deriving DecidableEq, Inhabited, Repr

namespace Row

def coeff (r : Row) (v : Nat) : Int := r.coeffs.getD v 0

/-- The sum of `c * x v` over coefficients that belong to the unknowns from `v` on. -/
def dotFrom (x : Nat → Int) : Nat → List Int → Int
  | _, [] => 0
  | v, c :: cs => c * x v + dotFrom x (v + 1) cs

def value (r : Row) (x : Nat → Int) : Int := dotFrom x 0 r.coeffs

def neg? (r : Row) : Option Row := do
  return ⟨← r.coeffs.mapM Word.neg?, ← Word.neg? r.rhs⟩

def isTrivial (r : Row) : Bool := r.coeffs.all (· == 0)

def termTexts (r : Row) : List String :=
  r.coeffs.zipIdx.filterMap fun (c, v) => if c = 0 then none else some s!"{c}*x{v}"

def text (r : Row) (relation : String) : String :=
  let terms := r.termTexts
  let sum := if terms.isEmpty then "0" else " + ".intercalate terms
  s!"{sum} {relation} {r.rhs}\n"

def lexLe : List Int → List Int → Bool
  | [], _ => true
  | _ :: _, [] => false
  | a :: as, b :: bs => a < b || (a == b && lexLe as bs)

def le (r s : Row) : Bool := lexLe (r.coeffs ++ [r.rhs]) (s.coeffs ++ [s.rhs])

end Row

/-- Inequalities `coeffs · x ≤ rhs` and equations over integer unknowns. Each row has one
coefficient for each unknown. -/
structure ConstraintSystem where
  vars : Nat
  rows : List Row
  equations : List Row
  rows_length : ∀ r ∈ rows, r.coeffs.length = vars
  equations_length : ∀ r ∈ equations, r.coeffs.length = vars
deriving DecidableEq

namespace ConstraintSystem

def empty (vars : Nat) : ConstraintSystem := ⟨vars, [], [], by simp, by simp⟩

instance : Inhabited ConstraintSystem := ⟨empty 0⟩

def size (s : ConstraintSystem) : Nat := s.rows.length + s.equations.length

def pad (s : ConstraintSystem) (coeffs : List Int) : List Int :=
  coeffs.take s.vars ++ List.replicate (s.vars - coeffs.length) 0

@[simp] theorem length_pad (s : ConstraintSystem) (coeffs : List Int) :
    (s.pad coeffs).length = s.vars := by
  simp only [pad, List.length_append, List.length_take, List.length_replicate]
  omega

theorem length_append_pad (s : ConstraintSystem) (coeffs : List Int) (rhs : Int) {rs : List Row}
    (h : ∀ r ∈ rs, r.coeffs.length = s.vars) :
    ∀ r ∈ rs ++ [⟨s.pad coeffs, rhs⟩], r.coeffs.length = s.vars := by
  intro r hr
  rcases List.mem_append.mp hr with hr | hr
  · exact h r hr
  · simp [List.mem_singleton.mp hr]

def addLe (s : ConstraintSystem) (coeffs : List Int) (rhs : Int) : ConstraintSystem :=
  { s with
    rows := s.rows ++ [⟨s.pad coeffs, rhs⟩]
    rows_length := s.length_append_pad coeffs rhs s.rows_length }

def addEq (s : ConstraintSystem) (coeffs : List Int) (rhs : Int) : ConstraintSystem :=
  { s with
    equations := s.equations ++ [⟨s.pad coeffs, rhs⟩]
    equations_length := s.length_append_pad coeffs rhs s.equations_length }

def addAllLe (s : ConstraintSystem) (rows : List Row) : ConstraintSystem :=
  rows.foldl (fun s r => s.addLe r.coeffs r.rhs) s

def addAllEq (s : ConstraintSystem) (rows : List Row) : ConstraintSystem :=
  rows.foldl (fun s r => s.addEq r.coeffs r.rhs) s

/-- The system with `coeffs · x ≥ rhs`, unless a word cannot hold the negated row. -/
def addGe? (s : ConstraintSystem) (coeffs : List Int) (rhs : Int) : Option ConstraintSystem := do
  let r ← Row.neg? ⟨coeffs, rhs⟩
  return s.addLe r.coeffs r.rhs

def Satisfies (s : ConstraintSystem) (x : Nat → Int) : Prop :=
  (∀ r ∈ s.rows, r.value x ≤ r.rhs) ∧ ∀ r ∈ s.equations, r.value x = r.rhs

def text (s : ConstraintSystem) : String :=
  String.join (s.equations.map (·.text "==") ++ s.rows.map (·.text "<="))

end ConstraintSystem

end LoopLegality

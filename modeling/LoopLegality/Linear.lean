import LoopLegality.Expr
import LoopLegality.IndexMap

namespace LoopLegality

/-- A constant plus a sum of bindings with coefficients. No coefficient is zero, so that two
forms are equal exactly when they agree at every valuation. -/
structure Linear where
  constant : Int
  terms : IndexMap Int
  nonzero : ∀ t ∈ terms.entries, t.2 ≠ 0
deriving DecidableEq

namespace Linear

def const (n : Int) : Linear := ⟨n, .empty, List.forall_mem_nil _⟩

def zero : Linear := const 0

def erase (l : Linear) (x : Symbol) : Linear :=
  ⟨l.constant, l.terms.erase x, fun t ht => l.nonzero t (List.mem_filter.mp ht).1⟩

def set (l : Linear) (x : Symbol) (c : Int) : Linear :=
  if hc : c = 0 then l.erase x
  else
    { l with
      terms := l.terms.insert x c
      nonzero := by
        intro t ht
        obtain rfl | ht := IndexMap.mem_insertEntry ht
        · exact hc
        · exact l.nonzero t ht }

def term (x : Symbol) (c : Int) : Linear := zero.set x c

def var (x : Symbol) : Linear := term x 1

def coefficient (l : Linear) (x : Symbol) : Int := (l.terms.get? x).getD 0

def support (l : Linear) : List Symbol := l.terms.keys

def constant? (l : Linear) : Option Int := if l.terms.isEmpty then some l.constant else none

def sumOf (v : Symbol → Int) : List (Symbol × Int) → Int
  | [] => 0
  | t :: ts => t.2 * v t.1 + sumOf v ts

def eval (l : Linear) (v : Symbol → Int) : Int := l.constant + sumOf v l.terms.entries

def addTerm? (l : Linear) (t : Symbol × Int) : Option Linear := do
  return l.set t.1 (← Word.add? (l.coefficient t.1) t.2)

/-- The sum, if each of its coefficients fits a word. -/
def add? (l m : Linear) : Option Linear := do
  let constant ← Word.add? l.constant m.constant
  m.terms.entries.foldlM addTerm? { l with constant }

def scaleTerm? (k : Int) (ts : IndexMap Int) (t : Symbol × Int) : Option (IndexMap Int) := do
  return ts.insert t.1 (← Word.mul? t.2 k)

theorem nonzero_of_scaleTerms {k : Int} (hk : k ≠ 0) {es : List (Symbol × Int)}
    {ts ts' : IndexMap Int} (h : es.foldlM (scaleTerm? k) ts = some ts')
    (hes : ∀ t ∈ es, t.2 ≠ 0) (hts : ∀ t ∈ ts.entries, t.2 ≠ 0) : ∀ t ∈ ts'.entries, t.2 ≠ 0 := by
  induction es generalizing ts with
  | nil =>
    obtain rfl : ts = ts' := by simpa using h
    exact hts
  | cons e es ih =>
    simp only [List.foldlM_cons, scaleTerm?, Option.bind_eq_bind, Option.bind_eq_some_iff,
      Option.pure_def, Option.some.injEq] at h
    obtain ⟨_, ⟨c, hc, rfl⟩, h⟩ := h
    refine ih h (fun t ht => hes t (List.mem_cons_of_mem _ ht)) (fun t ht => ?_)
    obtain rfl | ht := IndexMap.mem_insertEntry ht
    · rw [Word.eq_of_mul? hc]
      exact Int.mul_ne_zero (hes e List.mem_cons_self) hk
    · exact hts t ht

def scale? (l : Linear) (k : Int) : Option Linear :=
  if hk : k = 0 then some zero
  else
    match h : l.terms.entries.foldlM (scaleTerm? k) .empty with
    | none => none
    | some terms => do
      let constant ← Word.mul? l.constant k
      return ⟨constant, terms, nonzero_of_scaleTerms hk h l.nonzero (List.forall_mem_nil _)⟩

def neg? (l : Linear) : Option Linear := l.scale? (-1)

def sub? (l m : Linear) : Option Linear := do l.add? (← m.neg?)

def substitute? (l : Linear) (x : Symbol) (n : Int) : Option Linear :=
  match l.terms.get? x with
  | none => some l
  | some c => do
    let constant ← Word.add? l.constant (← Word.mul? c n)
    return { l.erase x with constant }

def fold? (l : Linear) (value? : Symbol → Option Int) : Option Linear :=
  l.support.foldlM (fun m x => match value? x with
    | some n => m.substitute? x n
    | none => some m) l

/-- The linear form of an expression made of integers, variables, signs, sums, differences and
products with a constant side. -/
def ofExpr? : Expr → Option Linear
  | .int n _ => some (const n)
  | .ident x _ => some (var x)
  | .unary .plus e _ => ofExpr? e
  | .unary .neg e _ => do (← ofExpr? e).neg?
  | .binary op l r _ => do
    let l ← ofExpr? l
    let r ← ofExpr? r
    match op with
    | .add => l.add? r
    | .sub => l.sub? r
    | .mul => match l.constant?, r.constant? with
      | some k, _ => r.scale? k
      | none, some k => l.scale? k
      | none, none => none
    | _ => none
  | _ => none

def termText (name : Symbol → String) (t : Symbol × Int) : String :=
  if t.2.natAbs = 1 then name t.1 else s!"{t.2.natAbs}*{name t.1}"

def laterTermText (name : Symbol → String) (t : Symbol × Int) : String :=
  (if t.2 < 0 then " - " else " + ") ++ termText name t

def written (name : Symbol → String) (l : Linear) : String :=
  match l.terms.entries with
  | [] => toString l.constant
  | t :: ts =>
    (if t.2 < 0 then "-" else "") ++ termText name t ++
      String.join (ts.map (laterTermText name)) ++
      (if l.constant = 0 then ""
        else (if l.constant < 0 then " - " else " + ") ++ toString l.constant.natAbs)

/-- A coefficient without an absolute value ends the run. -/
def text (name : Symbol → String) (l : Linear) : Except Overflow String := do
  l.terms.entries.forM fun t => discard (Word.abs t.2)
  return l.written name

end Linear

end LoopLegality

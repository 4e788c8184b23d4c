import LoopLegality.Access.Collect

namespace LoopLegality

/-- A read or a write of a binding, or of an element of it. Subscripts count by their linear
forms, where they have one. -/
structure Use where
  symbol : Symbol
  isWrite : Bool
  subscripts : Option (List (Option Linear))

def Use.of (x : Symbol) (indices : Option (List Expr)) (isWrite : Bool) : Use :=
  ⟨x, isWrite, indices.map (·.map Linear.ofExpr?)⟩

def Touch.use (t : Touch) : Use := ⟨t.symbol, t.isWrite, t.subscripts⟩

namespace Expr

/-- The object that a variable, a member or an element is. -/
inductive Denotes : Expr → Symbol → Option (List Expr) → Prop
  | name (x s) : Denotes (.ident x s) x none
  | member (o m a s) : Denotes (.field o m a s) m none
  | element (x s i s') : Denotes (.subscript (.ident x s) i s') x (some [i])
  | deeper {b x is} (i s) (h : Denotes b x (some is)) :
      Denotes (.subscript b i s) x (some (is ++ [i]))

/-- The expressions evaluated to find out where an object lies. -/
inductive Locates : Expr → Expr → Prop
  | index (b i s) : Locates (.subscript b i s) i
  | base {b e} (i s) (h : Locates b e) : Locates (.subscript b i s) e
  | owner {o e} (m a s) (h : Locates o e) : Locates (.field o m a s) e

/-- The expressions whose values evaluation asks for next. The operand of `sizeof` is not
evaluated, and that of `&` only as far as needed to locate it. -/
inductive Evaluates : Expr → Expr → Prop
  | location {e i} (h : Locates e i) : Evaluates e i
  | address {e i} (s) (h : Locates e i) : Evaluates (.unary .addressOf e s) i
  | operand {op} (e s) (h : op ≠ .addressOf) : Evaluates (.unary op e s) e
  | left (op l r s) : Evaluates (.binary op l r s) l
  | right (op l r s) : Evaluates (.binary op l r s) r
  | target {l i} (op r s) (h : Locates l i) : Evaluates (.assign op l r s) i
  | old (op l r s) : Evaluates (.assign (.compound op) l r s) l
  | value (op l r s) : Evaluates (.assign op l r s) r
  | test (c y n s) : Evaluates (.conditional c y n s) c
  | yes (c y n s) : Evaluates (.conditional c y n s) y
  | no (c y n s) : Evaluates (.conditional c y n s) n
  | cast (t e s) : Evaluates (.cast t e s) e
  | item {es e} (s) (h : e ∈ es) : Evaluates (.comma es s) e
  | argument {es e} (f s) (h : e ∈ es) : Evaluates (.call f es s) e

/-- What evaluation does by itself once it has the values it asks for. The owner of a member is
read with the member, and a call may touch whatever its summary says. -/
inductive Acts (c : Touch.Context) : Expr → Use → Prop
  | name {x} (s) (h : c.symbols.kind? x ≠ some .function) :
      Acts c (.ident x s) (.of x none false)
  | member (o m a s) : Acts c (.field o m a s) (.of m none false)
  | owner {o x is} (m a s) (h : Denotes o x is) : Acts c (.field o m a s) (.of x is false)
  | element {b i s x is} (h : Denotes (.subscript b i s) x is) :
      Acts c (.subscript b i s) (.of x is false)
  | assign {l x is} (op r s) (h : Denotes l x is) : Acts c (.assign op l r s) (.of x is true)
  | targetOwner {o x is} (op m a s r s') (h : Denotes o x is) :
      Acts c (.assign op (.field o m a s) r s') (.of x is false)
  | increment {op e x is} (s) (hop : op.isIncrement = true) (h : Denotes e x is) :
      Acts c (.unary op e s) (.of x is true)
  | call {f x} (s es s' w) (h : x ∈ c.calls.touchedBy (c.symbols.name f)) :
      Acts c (.call (.ident f s) es s') (.of x none w)

/-- What evaluation may read or write. -/
inductive Uses (c : Touch.Context) : Expr → Use → Prop
  | own {e u} (h : Acts c e u) : Uses c e u
  | through {e i u} (h : Evaluates e i) (hi : Uses c i u) : Uses c e u

end Expr

def Declarator.Uses (c : Touch.Context) (d : Declarator) (u : Use) : Prop :=
  (∃ e ∈ d.exprs, e.Uses c u) ∨ u = .of d.symbol none true

def ForInit.Uses (c : Touch.Context) : ForInit → Use → Prop
  | .decl d, u => ∃ x ∈ d.declarators, x.Uses c u
  | .expr e _, u => e.Uses c u
  | .null _, _ => False

def ForHeader.Uses (c : Touch.Context) (h : ForHeader) (u : Use) : Prop :=
  (∃ i, h.init = some i ∧ i.Uses c u) ∨ ∃ e, (h.cond = some e ∨ h.incr = some e) ∧ e.Uses c u

inductive Use.Site where
  | statement | header

namespace Stmt

/-- What running a statement may read or write, and inside which of its loops. The clauses of a
header run in the loops around the statement they belong to. -/
inductive Uses (c : Touch.Context) : Stmt → List LoopId → Use.Site → Use → Prop
  | expr {e u} (s) (h : e.Uses c u) : Uses c (.expr e s) [] .statement u
  | decl {ds d u} (s) (hd : d ∈ ds) (h : d.Uses c u) : Uses c (.decl ds s) [] .statement u
  | item {ss st ids p u} (s) (hst : st ∈ ss) (h : Uses c st ids p u) :
      Uses c (.compound ss s) ids p u
  | test {e u} (y n s) (h : e.Uses c u) : Uses c (.branch e y n s) [] .statement u
  | yes {y ids p u} (e n s) (h : Uses c y ids p u) : Uses c (.branch e y n s) ids p u
  | no {n ids p u} (e y s) (h : Uses c n ids p u) : Uses c (.branch e y (some n) s) ids p u
  | clause {h u} (b s) (hu : h.Uses c u) : Uses c (.forLoop h b s) [] .header u
  | body {b ids p u} (h s) (hb : Uses c b ids p u) : Uses c (.forLoop h b s) (h.id :: ids) p u
  | result {e u} (s) (h : e.Uses c u) : Uses c (.ret (some e) s) [] .statement u
  | whileTest {e u} (b s) (h : e.Uses c u) : Uses c (.whileLoop e b s) [] .statement u
  | whileBody {b ids p u} (e s) (h : Uses c b ids p u) : Uses c (.whileLoop e b s) ids p u
  | doTest {e u} (b s) (h : e.Uses c u) : Uses c (.doWhile b e s) [] .statement u
  | doBody {b ids p u} (e s) (h : Uses c b ids p u) : Uses c (.doWhile b e s) ids p u
  | switchTest {e u} (b s) (h : e.Uses c u) : Uses c (.switch e b s) [] .statement u
  | switchBody {b ids p u} (e s) (h : Uses c b ids p u) : Uses c (.switch e b s) ids p u
  | labelled {b ids p u} (n s) (h : Uses c b ids p u) : Uses c (.label n b s) ids p u

inductive HasLoop : Stmt → ForHeader → Prop
  | self (h b s) : HasLoop (.forLoop h b s) h
  | body {b h'} (h s) (hb : HasLoop b h') : HasLoop (.forLoop h b s) h'
  | item {ss st h} (s) (hst : st ∈ ss) (hl : HasLoop st h) : HasLoop (.compound ss s) h
  | yes {y h} (e n s) (hl : HasLoop y h) : HasLoop (.branch e y n s) h
  | no {n h} (e y s) (hl : HasLoop n h) : HasLoop (.branch e y (some n) s) h
  | whileBody {b h} (e s) (hl : HasLoop b h) : HasLoop (.whileLoop e b s) h
  | doBody {b h} (e s) (hl : HasLoop b h) : HasLoop (.doWhile b e s) h
  | switchBody {b h} (e s) (hl : HasLoop b h) : HasLoop (.switch e b s) h
  | labelled {b h} (n s) (hl : HasLoop b h) : HasLoop (.label n b s) h

end Stmt

namespace Expr

variable {c : Touch.Context} {u : Use}

theorem uses_iff {e : Expr} : e.Uses c u ↔ e.Acts c u ∨ ∃ i, e.Evaluates i ∧ i.Uses c u := by
  constructor
  · rintro (h | ⟨h, hi⟩)
    · exact Or.inl h
    · exact Or.inr ⟨_, h, hi⟩
  · rintro (h | ⟨i, h, hi⟩)
    · exact .own h
    · exact .through h hi

def LocationUses (c : Touch.Context) (e : Expr) (u : Use) : Prop := ∃ i, e.Locates i ∧ i.Uses c u

@[simp] theorem locationUses_ident {x : Symbol} {s : Span} :
    ¬ LocationUses c (.ident x s) u := by
  rintro ⟨i, ⟨⟩, -⟩

@[simp] theorem locationUses_subscript {b i : Expr} {s : Span} :
    LocationUses c (.subscript b i s) u ↔ LocationUses c b u ∨ i.Uses c u := by
  constructor
  · rintro ⟨j, h, hu⟩
    cases h with
    | index => exact Or.inr hu
    | base _ _ h => exact Or.inl ⟨j, h, hu⟩
  · rintro (⟨j, h, hu⟩ | hu)
    · exact ⟨j, .base i s h, hu⟩
    · exact ⟨i, .index b i s, hu⟩

@[simp] theorem locationUses_field {o : Expr} {m : Symbol} {a : Bool} {s : Span} :
    LocationUses c (.field o m a s) u ↔ LocationUses c o u := by
  constructor
  · rintro ⟨j, h, hu⟩
    cases h with
    | owner _ _ _ h => exact ⟨j, h, hu⟩
  · rintro ⟨j, h, hu⟩
    exact ⟨j, .owner m a s h, hu⟩

def ObjectUse (e : Expr) (isWrite : Bool) (u : Use) : Prop :=
  ∃ x is, e.Denotes x is ∧ u = .of x is isWrite

/-- What an assignment to an expression uses besides the new value. -/
def TargetUses (c : Touch.Context) (e : Expr) (u : Use) : Prop :=
  e.ObjectUse true u ∨ (∃ o m a s, e = .field o m a s ∧ o.ObjectUse false u) ∨
    e.LocationUses c u

theorem uses_ident {x : Symbol} {s : Span} :
    Uses c (.ident x s) u ↔ c.symbols.kind? x ≠ some .function ∧ u = .of x none false := by
  constructor
  · intro h
    cases h with
    | own h =>
      cases h with
      | name _ h => exact ⟨h, rfl⟩
    | through h _ =>
      cases h with
      | location h => cases h
  · rintro ⟨h, rfl⟩
    exact .own (.name s h)

theorem uses_field {o : Expr} {m : Symbol} {a : Bool} {s : Span} :
    Uses c (.field o m a s) u ↔
      (o.ObjectUse false u ∨ o.LocationUses c u) ∨ u = .of m none false := by
  constructor
  · intro h
    cases h with
    | own h =>
      cases h with
      | member => exact Or.inr rfl
      | owner _ _ _ h => exact Or.inl (Or.inl ⟨_, _, h, rfl⟩)
    | through h hi =>
      cases h with
      | location h => exact Or.inl (Or.inr (locationUses_field.mp ⟨_, h, hi⟩))
  · rintro ((⟨x, is, h, rfl⟩ | h) | rfl)
    · exact .own (.owner m a s h)
    · obtain ⟨i, h, hi⟩ := locationUses_field (m := m) (a := a) (s := s) |>.mpr h
      exact .through (.location h) hi
    · exact .own (.member o m a s)

theorem uses_subscript {b i : Expr} {s : Span} :
    Uses c (.subscript b i s) u ↔
      ObjectUse (.subscript b i s) false u ∨ LocationUses c (.subscript b i s) u := by
  constructor
  · intro h
    cases h with
    | own h =>
      cases h with
      | element h => exact Or.inl ⟨_, _, h, rfl⟩
    | through h hi =>
      cases h with
      | location h => exact Or.inr ⟨_, h, hi⟩
  · rintro (⟨x, is, h, rfl⟩ | ⟨i, h, hi⟩)
    · exact .own (.element h)
    · exact .through (.location h) hi

theorem uses_unary {op : UnaryOp} {e : Expr} {s : Span} :
    Uses c (.unary op e s) u ↔
      (op.isIncrement = true ∧ e.ObjectUse true u) ∨ (op = .addressOf ∧ e.LocationUses c u) ∨
        (op ≠ .addressOf ∧ e.Uses c u) := by
  constructor
  · intro h
    cases h with
    | own h =>
      cases h with
      | increment _ hop h => exact Or.inl ⟨hop, _, _, h, rfl⟩
    | through h hi =>
      cases h with
      | location h => cases h
      | address _ h => exact Or.inr (Or.inl ⟨rfl, _, h, hi⟩)
      | operand _ _ h => exact Or.inr (Or.inr ⟨h, hi⟩)
  · rintro (⟨hop, x, is, h, rfl⟩ | ⟨rfl, i, h, hi⟩ | ⟨hop, h⟩)
    · exact .own (.increment s hop h)
    · exact .through (.address s h) hi
    · exact .through (.operand e s hop) h

theorem uses_binary {op : BinaryOp} {l r : Expr} {s : Span} :
    Uses c (.binary op l r s) u ↔ l.Uses c u ∨ r.Uses c u := by
  constructor
  · intro h
    cases h with
    | own h => cases h
    | through h hi =>
      cases h with
      | location h => cases h
      | left => exact Or.inl hi
      | right => exact Or.inr hi
  · rintro (h | h)
    · exact .through (.left op l r s) h
    · exact .through (.right op l r s) h

theorem uses_assign {op : AssignOp} {l r : Expr} {s : Span} :
    Uses c (.assign op l r s) u ↔
      l.TargetUses c u ∨ (op ≠ .plain ∧ l.Uses c u) ∨ r.Uses c u := by
  constructor
  · intro h
    cases h with
    | own h =>
      cases h with
      | assign _ _ _ h => exact Or.inl (Or.inl ⟨_, _, h, rfl⟩)
      | targetOwner _ m a s' _ _ h =>
        exact Or.inl (Or.inr (Or.inl ⟨_, m, a, s', rfl, _, _, h, rfl⟩))
    | through h hi =>
      cases h with
      | location h => cases h
      | target _ _ _ h => exact Or.inl (Or.inr (Or.inr ⟨_, h, hi⟩))
      | old => exact Or.inr (Or.inl ⟨nofun, hi⟩)
      | value => exact Or.inr (Or.inr hi)
  · rintro ((⟨x, is, h, rfl⟩ | ⟨o, m, a, s', rfl, x, is, h, rfl⟩ | ⟨i, h, hi⟩) | ⟨hop, h⟩ | h)
    · exact .own (.assign op r s h)
    · exact .own (.targetOwner op m a s' r s h)
    · exact .through (.target op r s h) hi
    · cases op with
      | plain => exact (hop rfl).elim
      | compound op => exact .through (.old op l r s) h
    · exact .through (.value op l r s) h

theorem uses_conditional {t y n : Expr} {s : Span} :
    Uses c (.conditional t y n s) u ↔ (t.Uses c u ∨ y.Uses c u) ∨ n.Uses c u := by
  constructor
  · intro h
    cases h with
    | own h => cases h
    | through h hi =>
      cases h with
      | location h => cases h
      | test => exact Or.inl (Or.inl hi)
      | yes => exact Or.inl (Or.inr hi)
      | no => exact Or.inr hi
  · rintro ((h | h) | h)
    · exact .through (.test t y n s) h
    · exact .through (.yes t y n s) h
    · exact .through (.no t y n s) h

theorem uses_cast {t : String} {e : Expr} {s : Span} : Uses c (.cast t e s) u ↔ e.Uses c u := by
  constructor
  · intro h
    cases h with
    | own h => cases h
    | through h hi =>
      cases h with
      | location h => cases h
      | cast => exact hi
  · exact fun h => .through (.cast t e s) h

theorem uses_comma {es : List Expr} {s : Span} :
    Uses c (.comma es s) u ↔ ∃ e ∈ es, e.Uses c u := by
  constructor
  · intro h
    cases h with
    | own h => cases h
    | through h hi =>
      cases h with
      | location h => cases h
      | item _ h => exact ⟨_, h, hi⟩
  · rintro ⟨e, h, hi⟩
    exact .through (.item s h) hi

theorem uses_call {f : Symbol} {s : Span} {es : List Expr} {s' : Span} :
    Uses c (.call (.ident f s) es s') u ↔ (∃ e ∈ es, e.Uses c u) ∨
      ∃ x ∈ c.calls.touchedBy (c.symbols.name f), ∃ w, u = .of x none w := by
  constructor
  · intro h
    cases h with
    | own h =>
      cases h with
      | call _ _ _ w h => exact Or.inr ⟨_, h, w, rfl⟩
    | through h hi =>
      cases h with
      | location h => cases h
      | argument _ _ h => exact Or.inl ⟨_, h, hi⟩
  · rintro (⟨e, h, hi⟩ | ⟨x, h, w, rfl⟩)
    · exact .through (.argument _ s' h) hi
    · exact .own (.call s es s' w h)

theorem not_uses_of_inert {e : Expr} (h : ∀ u, ¬ e.Acts c u) (hi : ∀ i, ¬ e.Evaluates i) :
    ¬ e.Uses c u := by
  rw [uses_iff]
  rintro (ha | ⟨i, he, -⟩)
  · exact h u ha
  · exact hi i he

theorem uses_or_targetUses {e : Expr} :
    e.Uses c u ∨ e.TargetUses c u ↔ e.Uses c u ∨ e.ObjectUse true u := by
  constructor
  · rintro (h | h | ⟨o, m, a, s, rfl, h⟩ | ⟨i, h, hi⟩)
    · exact Or.inl h
    · exact Or.inr h
    · exact Or.inl (uses_field.mpr (Or.inl (Or.inl h)))
    · exact Or.inl (.through (.location h) hi)
  · rintro (h | h)
    · exact Or.inl h
    · exact Or.inr (Or.inl h)

theorem Uses.congr {c' : Touch.Context} {e : Expr} (hs : c.symbols = c'.symbols)
    (hc : c.calls = c'.calls) (h : e.Uses c u) : e.Uses c' u := by
  obtain ⟨symbols, calls, strict, indices⟩ := c
  obtain ⟨symbols', calls', strict', indices'⟩ := c'
  cases hs
  cases hc
  induction h with
  | own h =>
    apply Uses.own
    cases h with
    | name s h => exact .name s h
    | member => exact .member ..
    | owner m a s h => exact .owner m a s h
    | element h => exact .element h
    | assign op r s h => exact .assign op r s h
    | targetOwner op m a s r s' h => exact .targetOwner op m a s r s' h
    | increment s hop h => exact .increment s hop h
    | call s es s' w h => exact .call s es s' w h
  | through h _ ih => exact .through h ih

end Expr

end LoopLegality

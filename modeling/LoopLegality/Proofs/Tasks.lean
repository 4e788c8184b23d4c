import LoopLegality.Access.Collect
import LoopLegality.Proofs.Results

namespace LoopLegality

namespace Touch

/-- A piece of the work of collecting from expressions: one touch, what a call does besides
evaluating its arguments, or an expression that is looked at in one of five ways. -/
inductive Task where
  | touch (symbol : Symbol) (isWrite : Bool) (subscripts : Option (List (Option Linear)))
      (span : Span)
  | effects (span : Span) (callee : String)
  | expr (e : Expr)
  | indices (e : Expr)
  | target (e : Expr)
  | owner (e : Expr)
  | address (e : Expr)

def array? (c : Context) (e : Expr) : Option Symbol :=
  if c.strict && (chain e).1.any (Linear.ofExpr? · |>.isNone) then none else (chain e).2.ident?

theorem one_eq_ok {c : Context} {t : Touch} {ts : List Touch} (h : one c t = .ok ts) :
    ts = [t] := by
  rw [one] at h
  split at h
  · cases h
  · exact (Except.ok.inj h).symm

namespace Task

variable (c : Context)

def run : Task → Result
  | touch x w is s => one c ⟨x, w, is, false, s⟩
  | effects s g => callEffects c s (c.calls.touchedBy g)
  | expr e => ofExpr c e
  | indices e => ofIndices c e
  | target e => ofTarget c e
  | owner e => ofOwner c e
  | address e => ofAddress c e

def subscript? (b i : Expr) (s : Span) (isWrite : Bool) : Option (List Task) :=
  (array? c (.subscript b i s)).map fun x =>
    [touch x isWrite (some ((chain (.subscript b i s)).1.map Linear.ofExpr?)) s, indices b, expr i]

/-- The tasks that a task is made of, in order, unless it is refused for its form. -/
def steps? : Task → Option (List Task)
  | touch .. => none
  | effects s g =>
    some ((c.calls.touchedBy g).flatMap fun x => [touch x false none s, touch x true none s])
  | expr e =>
    match e with
    | .int .. | .float .. | .char .. | .str .. | .sizeOfType _ | .sizeOf .. => some []
    | .ident x s =>
      some (if c.symbols.kind? x = some .function then [] else [touch x false none s])
    | .field o m _ s => some [owner o, touch m false none s]
    | .subscript b i s => subscript? c b i s false
    | .call f args s => f.ident?.map fun x => args.map expr ++ [effects s (c.symbols.name x)]
    | .unary op e _ =>
      match op with
      | .plus | .neg | .not | .complement => some [expr e]
      | .preIncr | .preDecr | .postIncr | .postDecr => some [expr e, target e]
      | .addressOf => some [address e]
      | .deref => none
    | .binary _ l r _ => some [expr l, expr r]
    | .assign .plain l r _ => some [target l, expr r]
    | .assign (.compound _) l r _ => some [target l, expr l, expr r]
    | .conditional t y n _ => some [expr t, expr y, expr n]
    | .cast _ e _ => some [expr e]
    | .comma es _ => some (es.map expr)
  | indices e =>
    match e with
    | .subscript b i _ => some [indices b, expr i]
    | _ => some []
  | target e =>
    match e with
    | .ident x s => some [touch x true none s]
    | .field o m _ s => some [owner o, touch m true none s]
    | .subscript b i s => subscript? c b i s true
    | _ => none
  | owner e =>
    match e with
    | .ident x s => some [touch x false none s]
    | .subscript b i s => subscript? c b i s false
    | _ => none
  | address e =>
    match e with
    | .ident .. => some []
    | .subscript b i _ => some [expr i, address b]
    | .field o _ _ _ => some [address o]
    | _ => none

def runAll : List Task → Result
  | [] => .ok []
  | p :: ps => do return (← p.run c) ++ (← runAll ps)

variable {c} {ts : List Touch} {p q r : Task} {ps qs : List Task}

theorem runAll_append :
    runAll c (ps ++ qs) = do return (← runAll c ps) ++ (← runAll c qs) := by
  induction ps with
  | nil => simp [runAll, ok_bind]
  | cons p ps ih =>
    simp only [List.cons_append, runAll, ih, bind_assoc, pure_bind, List.append_assoc]

theorem runAll_singleton : runAll c [p] = p.run c := by
  simp only [runAll, ok_bind, List.append_nil]
  exact bind_pure _

theorem runAll_pair : runAll c [p, q] = do return (← p.run c) ++ (← q.run c) := by
  simp only [runAll, ok_bind, bind_assoc, pure_bind, List.append_nil]

theorem runAll_triple :
    runAll c [p, q, r] = do return (← p.run c) ++ (← q.run c) ++ (← r.run c) := by
  simp only [runAll, ok_bind, bind_assoc, pure_bind, List.append_nil, List.append_assoc]

theorem runAll_map_expr (es : List Expr) : runAll c (es.map expr) = ofExprs c es := by
  induction es with
  | nil => rfl
  | cons e es ih => simp only [List.map_cons, runAll, ih, ofExprs, run]

theorem runAll_effects (s : Span) (xs : List Symbol) :
    runAll c (xs.flatMap fun x => [touch x false none s, touch x true none s]) =
      callEffects c s xs := by
  induction xs with
  | nil => rfl
  | cons x xs ih =>
    rw [List.flatMap_cons, runAll_append, ih, runAll_pair]
    simp only [callEffects, Touch.scalar, run, bind_assoc, pure_bind]

theorem element_eq_ok_iff {e : Expr} {w : Bool} :
    element c e w = .ok ts ↔ ∃ x, array? c e = some x ∧
      one c ⟨x, w, some ((chain e).1.map Linear.ofExpr?), false, e.span⟩ = .ok ts := by
  simp only [element, array?]
  cases (chain e).2.ident? with
  | none => simp [refuse]
  | some x =>
    cases hfind : (chain e).1.find? (Linear.ofExpr? · |>.isNone) with
    | none =>
      have hany : (chain e).1.any (Linear.ofExpr? · |>.isNone) = false := by
        simpa using List.find?_eq_none.mp hfind
      simp [hany]
    | some i =>
      have hi := List.find?_some (p := (Linear.ofExpr? · |>.isNone)) hfind
      have hany : (chain e).1.any (Linear.ofExpr? · |>.isNone) = true :=
        List.any_eq_true.mpr ⟨i, List.mem_of_find?_eq_some hfind, hi⟩
      cases c.strict <;> simp [hany, refuse]

theorem subscript_eq_ok_iff {b i : Expr} {s : Span} {w : Bool} :
    (do return (← element c (.subscript b i s) w) ++ (← ofIndices c b) ++ (← ofExpr c i)) =
        Except.ok ts ↔
      ∃ qs, subscript? c b i s w = some qs ∧ runAll c qs = .ok ts := by
  constructor
  · intro h
    obtain ⟨us, hus, hrest⟩ := bind_eq_ok.mp h
    obtain ⟨x, hx, hone⟩ := element_eq_ok_iff.mp hus
    refine ⟨_, Option.map_eq_some_iff.mpr ⟨x, hx, rfl⟩, ?_⟩
    rw [runAll_triple]
    exact bind_eq_ok.mpr ⟨us, hone, hrest⟩
  · rintro ⟨qs, hqs, hrun⟩
    obtain ⟨x, hx, rfl⟩ := Option.map_eq_some_iff.mp hqs
    rw [runAll_triple] at hrun
    obtain ⟨us, hone, hrest⟩ := bind_eq_ok.mp hrun
    exact bind_eq_ok.mpr ⟨us, element_eq_ok_iff.mpr ⟨x, hx, hone⟩, hrest⟩

/-- A task other than a touch gives what its steps give. -/
theorem run_eq_ok_iff (hp : ∀ x w is s, p ≠ touch x w is s) :
    p.run c = .ok ts ↔ ∃ qs, p.steps? c = some qs ∧ runAll c qs = .ok ts := by
  cases p with
  | touch x w is s => exact absurd rfl (hp x w is s)
  | effects s g => simp [run, steps?, runAll_effects]
  | expr e =>
    cases e with
    | int | float | char | str | sizeOfType | sizeOf => simp [run, steps?, runAll, ofExpr]
    | ident x s =>
      by_cases hx : c.symbols.kind? x = some .function
      · simp [run, steps?, runAll, ofExpr, hx]
      · simp [run, steps?, runAll_singleton, ofExpr, hx, Touch.scalar]
    | field => simp [run, steps?, runAll_pair, ofExpr, Touch.scalar]
    | subscript => exact subscript_eq_ok_iff
    | call f args s =>
      rw [run, ofExpr, steps?]
      cases f.ident? with
      | none => simp [refuse]
      | some x => simp [runAll_append, runAll_map_expr, runAll_singleton, run]
    | unary op e s => cases op <;> simp [run, steps?, runAll_singleton, runAll_pair, ofExpr, refuse]
    | binary => simp [run, steps?, runAll_pair, ofExpr]
    | assign op l r s =>
      cases op with
      | plain => simp [run, steps?, runAll_pair, ofExpr]
      | compound => simp [run, steps?, runAll_triple, ofExpr]
    | conditional => simp [run, steps?, runAll_triple, ofExpr]
    | cast => simp [run, steps?, runAll_singleton, ofExpr]
    | comma => simp [run, steps?, runAll_map_expr, ofExpr]
  | indices e =>
    cases e with
    | subscript => simp [run, steps?, runAll_pair, ofIndices]
    | _ => simp [run, steps?, runAll, ofIndices]
  | target e =>
    cases e with
    | ident => simp [run, steps?, runAll_singleton, ofTarget, Touch.scalar]
    | field => simp [run, steps?, runAll_pair, ofTarget, Touch.scalar]
    | subscript => exact subscript_eq_ok_iff
    | unary op => cases op <;> simp [run, steps?, ofTarget, refuse]
    | _ => simp [run, steps?, ofTarget, refuse]
  | owner e =>
    cases e with
    | ident => simp [run, steps?, runAll_singleton, ofOwner, Touch.scalar]
    | subscript => exact subscript_eq_ok_iff
    | _ => simp [run, steps?, ofOwner, refuse]
  | address e =>
    cases e with
    | ident => simp [run, steps?, runAll, ofAddress]
    | subscript => simp [run, steps?, runAll_pair, ofAddress]
    | field => simp [run, steps?, runAll_singleton, ofAddress]
    | _ => simp [run, steps?, ofAddress, refuse]

theorem runAll_eq_ok (h : runAll c ps = .ok ts) :
    ∃ tss, List.Forall₂ (fun p us => p.run c = .ok us) ps tss ∧ ts = tss.flatten := by
  induction ps generalizing ts with
  | nil =>
    cases h
    exact ⟨[], .nil, rfl⟩
  | cons p ps ih =>
    obtain ⟨us, hus, h⟩ := bind_eq_ok.mp h
    obtain ⟨vs, hvs, h⟩ := bind_eq_ok.mp h
    cases h
    obtain ⟨tss, htss, rfl⟩ := ih hvs
    exact ⟨us :: tss, .cons hus htss, rfl⟩

noncomputable def size : Task → Nat
  | touch .. => 0
  | effects .. => 1
  | expr e | indices e | target e | owner e | address e => 1 + sizeOf e

theorem size_lt_of_subscript? {b i : Expr} {s : Span} {w : Bool}
    (h : subscript? c b i s w = some qs) :
    ∀ q ∈ qs, q.size < 1 + sizeOf (Expr.subscript b i s) := by
  obtain ⟨t, -, rfl⟩ := Option.map_eq_some_iff.mp h
  simp only [List.forall_mem_cons, size, Expr.subscript.sizeOf_spec]
  exact ⟨by omega, by omega, by omega, nofun⟩

theorem size_lt_of_map {es : List Expr} {n : Nat} (hn : sizeOf es < n) :
    ∀ q ∈ es.map expr, q.size < n := by
  intro q hq
  obtain ⟨e, he, rfl⟩ := List.mem_map.mp hq
  have hlt := List.sizeOf_lt_of_mem he
  simp only [size]
  omega

theorem size_lt (h : p.steps? c = some qs) : ∀ q ∈ qs, q.size < p.size := by
  cases p with
  | touch => cases h
  | effects s g =>
    cases h
    intro q hq
    obtain ⟨x, -, hq⟩ := List.mem_flatMap.mp hq
    obtain rfl | rfl := List.mem_pair.mp hq <;> exact Nat.zero_lt_one
  | expr e =>
    cases e with
    | int | float | char | str | sizeOfType | sizeOf =>
      cases h
      nofun
    | ident x s =>
      cases h
      split
      · nofun
      · simp only [List.forall_mem_cons, List.not_mem_nil, false_implies, implies_true, and_true,
          size, Expr.ident.sizeOf_spec]
        omega
    | subscript => exact size_lt_of_subscript? h
    | call f args s =>
      obtain ⟨x, -, rfl⟩ := Option.map_eq_some_iff.mp h
      have hsize : (expr (.call f args s)).size = 1 + (1 + sizeOf f + sizeOf args + sizeOf s) := by
        simp [size]
      rw [hsize]
      refine List.forall_mem_append.mpr ⟨size_lt_of_map (by omega), ?_⟩
      exact List.forall_mem_singleton.mpr (show 1 < _ by omega)
    | unary op e s =>
      cases op <;> cases h <;>
        simp only [List.forall_mem_cons, List.not_mem_nil, false_implies, implies_true, and_true,
          size, Expr.unary.sizeOf_spec] <;> omega
    | assign op l r s =>
      cases op <;> cases h <;>
        simp only [List.forall_mem_cons, List.not_mem_nil, false_implies, implies_true, and_true,
          size, Expr.assign.sizeOf_spec] <;> omega
    | comma es s =>
      cases h
      simp only [size, Expr.comma.sizeOf_spec]
      exact size_lt_of_map (by omega)
    | field | binary | conditional | cast =>
      cases h
      simp only [List.forall_mem_cons, List.not_mem_nil, false_implies, implies_true, and_true,
        size, Expr.field.sizeOf_spec, Expr.binary.sizeOf_spec,
        Expr.conditional.sizeOf_spec, Expr.cast.sizeOf_spec]
      omega
  | indices e =>
    cases e with
    | subscript =>
      cases h
      simp only [List.forall_mem_cons, List.not_mem_nil, false_implies, implies_true, and_true,
        size, Expr.subscript.sizeOf_spec]
      omega
    | _ =>
      cases h
      nofun
  | target e =>
    cases e with
    | subscript => exact size_lt_of_subscript? h
    | ident | field =>
      cases h
      simp only [List.forall_mem_cons, List.not_mem_nil, false_implies, implies_true, and_true,
        size, Expr.ident.sizeOf_spec, Expr.field.sizeOf_spec]
      omega
    | _ => cases h
  | owner e =>
    cases e with
    | subscript => exact size_lt_of_subscript? h
    | ident =>
      cases h
      simp only [List.forall_mem_cons, List.not_mem_nil, false_implies, implies_true, and_true,
        size, Expr.ident.sizeOf_spec]
      omega
    | _ => cases h
  | address e => cases e <;> cases h <;> simp [size] <;> omega

/-- What holds of single touches and passes from parts to the whole holds of all that is
collected. -/
theorem induction {P : Task → List Touch → Prop}
    (touch : ∀ x w is s, one c ⟨x, w, is, false, s⟩ = .ok [⟨x, w, is, false, s⟩] →
      P (.touch x w is s) [⟨x, w, is, false, s⟩])
    (steps : ∀ p qs tss, p.run c = .ok tss.flatten → p.steps? c = some qs → List.Forall₂ P qs tss →
      P p tss.flatten) (p : Task) (ts : List Touch) (h : p.run c = .ok ts) : P p ts := by
  by_cases hp : ∃ x w is s, p = .touch x w is s
  · obtain ⟨x, w, is, s, rfl⟩ := hp
    obtain rfl := one_eq_ok h
    exact touch x w is s h
  · obtain ⟨qs, hqs, hrun⟩ := (run_eq_ok_iff fun x w is s he => hp ⟨x, w, is, s, he⟩).mp h
    obtain ⟨tss, htss, rfl⟩ := runAll_eq_ok hrun
    refine steps p qs tss h hqs ?_
    have hsmall := size_lt hqs
    clear hqs hrun h hp
    induction htss with
    | nil => exact .nil
    | cons hq _ ih =>
      obtain ⟨hlt, hsmall⟩ := List.forall_mem_cons.mp hsmall
      exact .cons (Task.induction touch steps _ _ hq) (ih hsmall)
termination_by p.size

end Task

end Touch

end LoopLegality

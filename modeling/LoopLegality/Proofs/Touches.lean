import LoopLegality.Proofs.Tasks
import LoopLegality.Proofs.Uses

namespace LoopLegality

theorem Expr.Denotes.unique {e : Expr} {x y : Symbol} {is js : Option (List Expr)}
    (h : e.Denotes x is) (h' : e.Denotes y js) : x = y ∧ is = js := by
  induction h generalizing y js with
  | name x s =>
    cases h'
    exact ⟨rfl, rfl⟩
  | member o m a s =>
    cases h'
    exact ⟨rfl, rfl⟩
  | element x s i s' =>
    cases h' with
    | element => exact ⟨rfl, rfl⟩
    | deeper _ _ h => cases h
  | deeper i s h ih =>
    cases h' with
    | element => cases h
    | deeper _ _ h' =>
      obtain ⟨rfl, his⟩ := ih h'
      cases his
      exact ⟨rfl, rfl⟩

theorem Expr.Denotes.objectUse_iff {e : Expr} {x : Symbol} {is : Option (List Expr)} {w : Bool}
    {u : Use} (h : e.Denotes x is) : e.ObjectUse w u ↔ u = .of x is w := by
  constructor
  · rintro ⟨y, js, h', rfl⟩
    obtain ⟨rfl, rfl⟩ := h.unique h'
    rfl
  · rintro rfl
    exact ⟨x, is, h, rfl⟩

namespace Touch

variable {c : Context} {u : Use} {ts : List Touch}

theorem denotes_chain {b : Expr} {x : Symbol} (h : (chain b).2.ident? = some x) (i : Expr)
    (s : Span) :
    Expr.Denotes (.subscript b i s) x (some (chain (.subscript b i s)).1) := by
  fun_induction chain b generalizing i s with
  | case1 b j s' r ih => exact .deeper i s (ih h j s')
  | case2 e hne =>
    obtain ⟨s', rfl⟩ := Expr.ident?_eq_some h
    exact .element x s' i s

theorem locationUses_chain {b : Expr} {x : Symbol} (h : (chain b).2.ident? = some x) :
    b.LocationUses c u ↔ ∃ i ∈ (chain b).1, i.Uses c u := by
  fun_induction chain b with
  | case1 b i s r ih => simp [ih h, or_and_right, exists_or, r]
  | case2 e hne =>
    obtain ⟨s', rfl⟩ := Expr.ident?_eq_some h
    simp

theorem ident?_of_array? {e : Expr} {x : Symbol} (h : array? c e = some x) :
    (chain e).2.ident? = some x :=
  (Option.ite_none_left_eq_some.mp h).2

namespace Task

/-- What a task may use. -/
def Uses (c : Context) (u : Use) : Task → Prop
  | touch x w is s => u = use ⟨x, w, is, false, s⟩
  | effects _ g => ∃ x ∈ c.calls.touchedBy g, ∃ w, u = .of x none w
  | expr e => e.Uses c u
  | indices e => ∃ i ∈ (chain e).1, i.Uses c u
  | target e => e.TargetUses c u
  | owner e => e.ObjectUse false u ∨ e.LocationUses c u
  | address e => e.LocationUses c u

variable {p : Task} {qs : List Task}

theorem uses_of_subscript? {b i : Expr} {s : Span} {w : Bool}
    (h : subscript? c b i s w = some qs) :
    Expr.ObjectUse (.subscript b i s) w u ∨ Expr.LocationUses c (.subscript b i s) u ↔
      ∃ q ∈ qs, q.Uses c u := by
  obtain ⟨x, hx, rfl⟩ := Option.map_eq_some_iff.mp h
  have hb : (chain b).2.ident? = some x :=
    ident?_of_array? (e := .subscript b i s) hx
  rw [(denotes_chain hb i s).objectUse_iff, Expr.locationUses_subscript, locationUses_chain hb]
  simp [Uses, use, Use.of]

theorem uses_iff (h : p.steps? c = some qs) : p.Uses c u ↔ ∃ q ∈ qs, q.Uses c u := by
  cases p with
  | touch => cases h
  | effects s g =>
    cases h
    constructor
    · rintro ⟨x, hx, w, rfl⟩
      exact ⟨touch x w none s, List.mem_flatMap.mpr ⟨x, hx, by cases w <;> simp⟩, rfl⟩
    · rintro ⟨q, hq, hu⟩
      obtain ⟨x, hx, hq⟩ := List.mem_flatMap.mp hq
      obtain rfl | rfl := List.mem_pair.mp hq <;> exact ⟨x, hx, _, hu⟩
  | expr e =>
    cases e with
    | int | float | char | str | sizeOfType | sizeOf =>
      cases h
      exact iff_of_false (Expr.not_uses_of_inert (by rintro _ ⟨⟩) (by rintro _ ⟨⟨⟩⟩)) (by simp)
    | ident x s =>
      cases h
      simp only [Uses, Expr.uses_ident]
      split <;> simp [use, Use.of, *]
    | field o m a s =>
      cases h
      simp [Uses, Expr.uses_field, use, Use.of]
    | subscript b i s => exact Expr.uses_subscript.trans (uses_of_subscript? h)
    | call f args s =>
      obtain ⟨x, hx, rfl⟩ := Option.map_eq_some_iff.mp h
      obtain ⟨s', rfl⟩ := Expr.ident?_eq_some hx
      simp [Uses, Expr.uses_call, or_and_right, exists_or]
    | unary op e s =>
      cases op with
      | preIncr | preDecr | postIncr | postDecr =>
        cases h
        simpa [Uses, Expr.uses_unary, UnaryOp.isIncrement, or_comm] using
          (Expr.uses_or_targetUses (c := c) (e := e) (u := u)).symm
      | deref => cases h
      | _ =>
        cases h
        simp [Uses, Expr.uses_unary, UnaryOp.isIncrement]
    | binary => 
      cases h
      simp [Uses, Expr.uses_binary]
    | assign op l r s => 
      cases op <;> cases h <;> simp [Uses, Expr.uses_assign]
    | conditional =>
      cases h
      simp [Uses, Expr.uses_conditional, or_assoc]
    | cast =>
      cases h
      simp [Uses, Expr.uses_cast]
    | comma =>
      cases h
      simp [Uses, Expr.uses_comma]
  | indices e => 
    cases e with
    | subscript => 
      cases h
      simp [Uses, chain, or_and_right, exists_or]
    | _ => 
      cases h
      simp [Uses, chain]
  | target e =>
    cases e with
    | ident x s => 
      cases h
      simp [Uses, Expr.TargetUses, (Expr.Denotes.name x s).objectUse_iff, use, Use.of]
    | field o m a s =>
      cases h
      simp [Uses, Expr.TargetUses, (Expr.Denotes.member o m a s).objectUse_iff, use, Use.of,
        or_comm]
    | subscript b i s => simpa [Uses, Expr.TargetUses] using uses_of_subscript? h
    | _ => cases h
  | owner e => 
    cases e with
    | ident x s =>
      cases h
      simp [Uses, (Expr.Denotes.name x s).objectUse_iff, use, Use.of]
    | subscript b i s => exact uses_of_subscript? h
    | _ => cases h
  | address e => 
    cases e with
    | ident | field =>
      cases h
      simp [Uses]
    | subscript => 
      cases h
      simp [Uses, or_comm]
    | _ => cases h

theorem mem_flatten {tss : List (List Touch)}
    (h : List.Forall₂ (fun q ts => u ∈ ts.map use ↔ q.Uses c u) qs tss) :
    u ∈ tss.flatten.map use ↔ ∃ q ∈ qs, q.Uses c u := by
  induction h with
  | nil => simp
  | cons hq _ ih =>
    rw [List.flatten_cons, List.map_append, List.mem_append, hq, ih]
    simp

/-- The work is done exactly: what the task may use is collected, and no more. -/
theorem mem_run (h : p.run c = .ok ts) : u ∈ ts.map use ↔ p.Uses c u := by
  refine Task.induction (P := fun p ts => u ∈ ts.map use ↔ p.Uses c u)
    (fun x w is s _ => ?_) ?_ p ts h
  · simp [Uses]
  · exact fun p qs tss _ hqs htss => (mem_flatten htss).trans (uses_iff hqs).symm

end Task

theorem mem_append_iff {us : List Touch} :
    u ∈ (ts ++ us).map use ↔ u ∈ ts.map use ∨ u ∈ us.map use := by
  rw [List.map_append, List.mem_append]

/-- Evaluation is collected exactly: what it may use, and no more. -/
theorem mem_ofExpr (e : Expr) (h : ofExpr c e = .ok ts) : u ∈ ts.map use ↔ e.Uses c u :=
  Task.mem_run (p := .expr e) h

theorem mem_ofExprs (es : List Expr) (h : ofExprs c es = .ok ts) :
    u ∈ ts.map use ↔ ∃ e ∈ es, e.Uses c u := by
  rw [← Task.runAll_map_expr] at h
  obtain ⟨tss, htss, rfl⟩ := Task.runAll_eq_ok h
  simpa [Task.Uses] using Task.mem_flatten (htss.imp fun _ _ => Task.mem_run)

theorem mem_ofDeclarator {d : Declarator} (h : ofDeclarator c d = .ok ts) :
    u ∈ ts.map use ↔ d.Uses c u := by
  rw [ofDeclarator] at h
  split at h
  · cases h
  · obtain ⟨ts₁, h₁, h⟩ := bind_eq_ok.mp h
    obtain ⟨ts₂, h₂, h⟩ := bind_eq_ok.mp h
    obtain ⟨ts₃, h₃, h⟩ := bind_eq_ok.mp h
    cases h
    obtain rfl := one_eq_ok h₂
    rw [mem_append_iff, mem_append_iff, mem_ofExprs _ h₁, mem_ofExprs _ h₃, Declarator.Uses,
      Declarator.exprs]
    simp only [List.mem_append, or_and_right, exists_or, List.map_cons, List.map_nil,
      List.mem_singleton]
    exact or_right_comm

theorem mem_ofDeclarators {ds : List Declarator} (h : ofDeclarators c ds = .ok ts) :
    u ∈ ts.map use ↔ ∃ d ∈ ds, d.Uses c u := by
  induction ds generalizing ts with
  | nil =>
    cases h
    simp
  | cons d ds ih =>
    obtain ⟨ts₁, h₁, h⟩ := bind_eq_ok.mp h
    obtain ⟨ts₂, h₂, h⟩ := bind_eq_ok.mp h
    cases h
    rw [mem_append_iff, mem_ofDeclarator h₁, ih h₂]
    simp

theorem ofStatementExpr_eq_ok {e : Expr} {s : Span} (h : ofStatementExpr c e s = .ok ts) :
    ofExpr c e = .ok ts := by
  unfold ofStatementExpr at h
  split at h
  · exact h
  · exact h
  · split at h
    · exact h
    · cases h
  · cases h

theorem mem_ofStatementExpr {e : Expr} {s : Span} (h : ofStatementExpr c e s = .ok ts) :
    u ∈ ts.map use ↔ e.Uses c u :=
  mem_ofExpr e (ofStatementExpr_eq_ok h)

end Touch

end LoopLegality

import LoopLegality.Proofs.Frame
import LoopLegality.Propagation

namespace LoopLegality

namespace Expr

def addressed : Expr → List Symbol
  | .unary .addressOf e _ => e.targets
  | _ => []

/-- The bindings that this node assigns, increments or passes to a function by address. -/
def disturbs : Expr → List Symbol
  | .call _ args _ => (nodesOf args).flatMap addressed
  | e => e.assigns

def disturbed (e : Expr) : List Symbol := e.nodes.flatMap disturbs

theorem isEffect_of_disturbs {e : Expr} {x : Symbol} (h : x ∈ e.disturbs) :
    e.isEffect = true := by
  cases e with
  | call f args s => rfl
  | _ =>
    by_contra hne
    simp [disturbs, assigns_of_not_isEffect (by simpa using hne)] at h

theorem hasEffect_of_disturbed {e : Expr} {x : Symbol} (h : x ∈ e.disturbed) :
    e.hasEffect = true := by
  obtain ⟨i, hi, hx⟩ := List.mem_flatMap.mp h
  exact List.any_eq_true.mpr ⟨i, hi, isEffect_of_disturbs hx⟩

end Expr

def Initializer.clears : Initializer → Bool
  | .expr e => e.hasEffect
  | .list _ => true

namespace Declarator

/-- Arrays, pointers and variables that outlive their block are not followed. -/
def isFollowed (d : Declarator) : Bool := d.dims.isEmpty && !d.pointer && d.storage == .automatic

def clears (d : Declarator) : Bool := d.isFollowed && d.init.any Initializer.clears

def disturbed (d : Declarator) : List Symbol := d.exprs.flatMap Expr.disturbed

theorem clears_of_disturbed {d : Declarator} (hd : d.isFollowed = true) {x : Symbol}
    (hx : x ∈ d.disturbed) : d.clears = true := by
  have hdims : d.dims = [] := by
    simp only [isFollowed, Bool.and_eq_true, List.isEmpty_iff] at hd
    exact hd.1.1
  rw [clears, hd, Bool.true_and]
  rw [disturbed, exprs, hdims] at hx
  cases hi : d.init with
  | none => simp [hi] at hx
  | some i =>
    cases i with
    | list is => rfl
    | expr e =>
      refine Expr.hasEffect_of_disturbed (e := e) (x := x) ?_
      simpa [hi, Initializer.exprs] using hx

end Declarator

namespace ConstEnv

variable {env : ConstEnv} {x y : Symbol}

theorem get?_assign_of_ne (h : x ≠ y) (value : Option Int) :
    (env.assign y value).get? x = env.get? x := by
  cases value with
  | some n => rw [assign, IndexMap.get?_insert, if_neg (Ne.symm h)]
  | none => rw [assign, IndexMap.get?_erase, if_neg h]

theorem get?_afterDeclarator {d : Declarator} (h : x ≠ d.symbol) :
    (env.afterDeclarator d).get? x = if d.clears then none else env.get? x := by
  have herase : (env.erase d.symbol).get? x = env.get? x := by
    rw [IndexMap.get?_erase, if_neg h]
  have hfollowed : (!d.dims.isEmpty || d.pointer || d.storage != .automatic) = !d.isFollowed := by
    simp [Declarator.isFollowed, Bool.not_and, bne]
  rw [afterDeclarator, hfollowed, Declarator.clears]
  cases d.isFollowed with
  | false => exact herase
  | true =>
    cases d.init with
    | none => exact herase
    | some i =>
      cases i with
      | list is => rfl
      | expr e =>
        simp only [Bool.not_true, Bool.false_eq_true, if_false, Option.any_some,
          Initializer.clears, Bool.true_and]
        split
        · rfl
        · exact get?_assign_of_ne h _

theorem get?_afterDeclarators (ds : List Declarator) (h : x ∉ ds.map (·.symbol)) :
    (ds.foldl afterDeclarator env).get? x =
      if ds.any Declarator.clears then none else env.get? x := by
  induction ds generalizing env with
  | nil => rfl
  | cons d ds ih =>
    rw [List.map_cons, List.mem_cons, not_or] at h
    rw [List.foldl_cons, ih h.2, get?_afterDeclarator h.1, List.any_cons]
    cases d.clears <;> simp

end ConstEnv

namespace Flow

/-- What a declaration leaves known of the variables it does not declare. All or nothing is
forgotten, and what its dimensions and initializers may change is forgotten for sure exactly if a
variable that is followed has an initializer after which nothing is known, or else the arrays,
pointers and lasting variables change no variable from outside. -/
theorem forgotten_iff_clears (ds : List Declarator) (s : Site) :
    (∀ (env : ConstEnv) (x : Symbol), x ∉ ds.map (·.symbol) →
      (ofStmt (.decl ds s) env).exit.get? x =
        if ds.any Declarator.clears then none else env.get? x) ∧
    ((∀ (env : ConstEnv), ∀ x ∈ ds.flatMap Declarator.disturbed, x ∉ ds.map (·.symbol) →
        (ofStmt (.decl ds s) env).exit.get? x = none) ↔
      ds.any Declarator.clears = true ∨
        ∀ d ∈ ds, d.isFollowed = false → ∀ x ∈ d.disturbed, x ∈ ds.map (·.symbol)) := by
  have hexit (env : ConstEnv) (x : Symbol) (hx : x ∉ ds.map (·.symbol)) :
      (ofStmt (.decl ds s) env).exit.get? x =
        if ds.any Declarator.clears then none else env.get? x :=
    ConstEnv.get?_afterDeclarators ds hx
  refine ⟨hexit, fun h => ?_, fun h env x hx hnot => ?_⟩
  · cases hclears : ds.any Declarator.clears with
    | true => exact .inl rfl
    | false =>
      refine .inr fun d hd _ x hx => ?_
      by_contra hnot
      -- a variable that was known before shows the effect that is missed
      have hnone := h (IndexMap.empty.insert x 0) x (List.mem_flatMap.mpr ⟨d, hd, hx⟩) hnot
      rw [hexit _ x hnot, hclears, if_neg Bool.false_ne_true, IndexMap.get?_insert,
        if_pos rfl] at hnone
      cases hnone
  · rw [hexit env x hnot]
    obtain ⟨d, hd, hx⟩ := List.mem_flatMap.mp hx
    obtain hclears | hdeclared := h
    · rw [if_pos hclears]
    · cases hfollowed : d.isFollowed with
      | false => exact absurd (hdeclared d hd hfollowed x hx) hnot
      | true =>
        rw [if_pos (List.any_eq_true.mpr ⟨d, hd, Declarator.clears_of_disturbed hfollowed hx⟩)]

namespace GrowingArray

/-- `int b[n++];` -/
def array : Declarator where
  symbol := 1
  dims := [some (.unary .postIncr (.ident 0 .none) .none)]
  pointer := false
  init := none
  storage := .automatic
  span := .none

def entry : ConstEnv := IndexMap.empty.insert 0 4

end GrowingArray

open GrowingArray in
/-- The increment in the dimension is missed. -/
theorem still_bound_growingArray :
    (ofStmt (.decl [array] ⟨.none, []⟩) entry).exit.get? 0 = some 4 ∧
      ¬ ∀ (env : ConstEnv), ∀ x ∈ [array].flatMap Declarator.disturbed,
        x ∉ [array].map (·.symbol) →
          (ofStmt (.decl [array] ⟨.none, []⟩) env).exit.get? x = none := by
  obtain ⟨hexit, hiff⟩ := forgotten_iff_clears [array] ⟨.none, []⟩
  refine ⟨hexit entry 0 (by decide), fun h => ?_⟩
  obtain hclears | hdeclared := hiff.mp h
  · cases hclears
  · exact absurd (hdeclared array (List.mem_singleton_self _) rfl 0 (by decide)) (by decide)

end Flow

end LoopLegality

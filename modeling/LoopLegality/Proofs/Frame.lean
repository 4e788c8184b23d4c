import LoopLegality.Effect
import LoopLegality.Proofs.Execution

namespace LoopLegality

def AgreeOff (xs : List Symbol) (σ σ' : Values) : Prop := ∀ x, x ∉ xs → σ' x = σ x

namespace AgreeOff

variable {xs ys : List Symbol} {σ τ υ : Values}

theorem refl (xs : List Symbol) (σ : Values) : AgreeOff xs σ σ := fun _ _ => rfl

theorem of_eq (xs : List Symbol) (h : τ = σ) : AgreeOff xs σ τ := h ▸ refl xs σ

theorem trans (h : AgreeOff xs σ τ) (h' : AgreeOff xs τ υ) : AgreeOff xs σ υ :=
  fun x hx => (h' x hx).trans (h x hx)

theorem mono (h : AgreeOff xs σ τ) (hsub : xs ⊆ ys) : AgreeOff ys σ τ :=
  fun x hx => h x fun hmem => hx (hsub hmem)

theorem append (h : AgreeOff xs σ τ) (h' : AgreeOff ys τ υ) : AgreeOff (xs ++ ys) σ υ :=
  (h.mono (List.subset_append_left xs ys)).trans (h'.mono (List.subset_append_right xs ys))

theorem update (h : AgreeOff xs σ τ) {x : Symbol} (hx : x ∈ xs) (n : Int) :
    AgreeOff xs σ (Function.update τ x n) := by
  intro y hy
  have hne : y ≠ x := fun he => hy (he ▸ hx)
  rw [Function.update_of_ne hne, h y hy]

theorem eq_of_nil (h : AgreeOff [] σ τ) : τ = σ := funext fun x => h x List.not_mem_nil

end AgreeOff

theorem Evaluation.both.agreeOff {p q : Evaluation} {xs ys : List Symbol} {σ σ' : Values}
    {a b : Int} (h : both p q σ a b σ') (hp : ∀ {σ n σ'}, p σ n σ' → AgreeOff xs σ σ')
    (hq : ∀ {σ n σ'}, q σ n σ' → AgreeOff ys σ σ') : AgreeOff (xs ++ ys) σ σ' := by
  obtain ⟨τ, h₁, h₂⟩ | ⟨τ, h₁, h₂⟩ := h
  · exact (hp h₁).append (hq h₂)
  · exact ((hq h₁).append (hp h₂)).mono fun x hx => List.mem_append.mpr (List.mem_append.mp hx).symm

namespace Expr

/-- The variables that this node itself writes. -/
def assigns : Expr → List Symbol
  | .assign _ l _ _ => l.targets
  | .unary op e _ => if op.isIncrement then e.targets else []
  | _ => []

def assigned (e : Expr) : List Symbol := e.nodes.flatMap assigns

theorem assigns_subset_writes (e : Expr) : e.assigns ⊆ e.writes := by
  cases e with
  | unary op e s =>
    simp only [assigns, writes]
    cases op.isIncrement <;> simp
  | _ => simp [assigns, writes]

theorem assigns_of_not_isEffect {e : Expr} (h : e.isEffect = false) : e.assigns = [] := by
  cases e <;> simp_all [assigns, isEffect]

theorem assigned_of_not_hasEffect {e : Expr} (h : e.hasEffect = false) : e.assigned = [] := by
  rw [hasEffect, List.any_eq_false] at h
  rw [assigned, List.flatMap_eq_nil_iff]
  intro i hi
  exact assigns_of_not_isEffect (by simpa using h i hi)

theorem isIncrement_eq (op : UnaryOp) : op.isIncrement = op.change?.isSome := by
  cases op <;> rfl

theorem Stores.agreeOff {e : Expr} {σ σ' : Values} {n : Int} (h : e.Stores σ n σ') :
    AgreeOff e.targets σ σ' := by
  cases e with
  | ident x s =>
    cases h
    exact (AgreeOff.refl _ σ).update List.mem_cons_self n
  | subscript b i s | field o m a s =>
    cases h
    exact AgreeOff.refl _ σ
  | _ => exact h.elim

mutual

/-- Evaluation changes only what some assignment or increment in the expression names. -/
theorem Yields.agreeOff : ∀ (e : Expr) {σ σ' : Values} {n : Int}, e.Yields σ n σ' →
    AgreeOff e.assigned σ σ'
  | .int .., _, _, _, h | .char .., _, _, _, h | .ident .., _, _, _, h => AgreeOff.of_eq _ h.2
  | .float .., _, _, _, h | .str .., _, _, _, h | .sizeOfType _, _, _, _, h
  | .sizeOf .., _, _, _, h => AgreeOff.of_eq _ h
  | .field o m a s, _, _, _, ⟨_, h⟩ => by
    simpa [assigned, nodes, assigns] using Yields.agreeOff o h
  | .subscript b i s, _, _, _, ⟨_, _, h⟩ => by
    simpa [assigned, nodes, assigns] using h.agreeOff (Yields.agreeOff b) (Yields.agreeOff i)
  | .call .., _, _, _, h => h.elim
  | .unary op e s, σ, σ', m, h => by
    have hop := isIncrement_eq op
    simp only [Yields] at h
    cases hd : op.change? with
    | none =>
      rw [hd] at h hop
      obtain ⟨a, h, -⟩ := h
      simpa [assigned, nodes, assigns, hop] using Yields.agreeOff e h
    | some d =>
      rw [hd] at h hop
      obtain ⟨old, new, τ, h, -, hst, -⟩ := h
      -- the operand is evaluated before its place is written, but its node comes after
      have hall := (Yields.agreeOff e h).append hst.agreeOff
      refine hall.mono fun x hx => ?_
      simpa [assigned, nodes, assigns, hop, or_comm] using hx
  | .binary op l r s, σ, σ', m, h => by
    have hall : AgreeOff (l.assigned ++ r.assigned) σ σ' := by
      simp only [Yields] at h
      obtain ⟨a, h, -⟩ | ⟨a, b, -, -, h⟩ := h
      · exact (Yields.agreeOff l h).mono (List.subset_append_left _ _)
      · split at h
        · obtain ⟨τ, h₁, h₂⟩ := h
          exact (Yields.agreeOff l h₁).append (Yields.agreeOff r h₂)
        · exact h.agreeOff (Yields.agreeOff l) (Yields.agreeOff r)
    simpa [assigned, nodes, assigns] using hall
  | .assign op l r s, σ, σ', m, h => by
    simp only [Yields] at h
    obtain ⟨old, new, τ, h, -, hst⟩ := h
    have hall := (h.agreeOff (Yields.agreeOff l) (Yields.agreeOff r)).append hst.agreeOff
    refine hall.mono fun x hx => ?_
    simpa [assigned, nodes, assigns, or_comm, or_assoc, or_left_comm] using hx
  | .conditional c t f s, σ, σ', m, h => by
    have hall : AgreeOff (c.assigned ++ (t.assigned ++ f.assigned)) σ σ' := by
      simp only [Yields] at h
      obtain ⟨a, τ, hc, h⟩ := h
      refine (Yields.agreeOff c hc).append ?_
      split at h
      · exact (Yields.agreeOff f h).mono (List.subset_append_right _ _)
      · exact (Yields.agreeOff t h).mono (List.subset_append_left _ _)
    simpa [assigned, nodes, assigns] using hall
  | .cast t e s, σ, σ', m, h => by
    simpa [assigned, nodes, assigns] using Yields.agreeOff e h
  | .comma es s, σ, σ', m, h => by
    simpa [assigned, nodes, assigns] using YieldsLast.agreeOff es h

theorem YieldsLast.agreeOff : ∀ (es : List Expr) {σ σ' : Values} {n : Int},
    YieldsLast es σ n σ' → AgreeOff ((nodesOf es).flatMap assigns) σ σ'
  | [], _, _, _, h => h.elim
  | e :: es, σ, σ', m, h => by
    have hall : AgreeOff (e.assigned ++ (nodesOf es).flatMap assigns) σ σ' := by
      obtain ⟨-, h⟩ | ⟨a, τ, he, h⟩ := h
      · exact (Yields.agreeOff e h).mono (List.subset_append_left _ _)
      · exact (Yields.agreeOff e he).append (YieldsLast.agreeOff es h)
    simpa [assigned, nodesOf] using hall

end

end Expr

/-- What running these parts of a tree may change. -/
def Node.writesOf (ns : List Node) : List Symbol := ns.flatMap Node.writes

namespace Node

theorem writesOf_append (ns ms : List Node) : writesOf (ns ++ ms) = writesOf ns ++ writesOf ms :=
  List.flatMap_append

theorem writesOf_subset {ns ms : List Node} (h : ns ⊆ ms) : writesOf ns ⊆ writesOf ms := by
  intro x hx
  obtain ⟨n, hn, hx⟩ := List.mem_flatMap.mp hx
  exact List.mem_flatMap.mpr ⟨n, h hn, hx⟩

end Node

open Node (writesOf)

theorem Stmt.mem_written {s : Stmt} {x : Symbol} : x ∈ s.written ↔ x ∈ writesOf s.nodes :=
  mem_ascending

section Parts

variable {σ σ' : Values} {n : Int}

theorem Expr.Yields.agreeOff_occurrences {e : Expr} (h : e.Yields σ n σ') :
    AgreeOff (writesOf e.occurrences) σ σ' := by
  refine (Expr.Yields.agreeOff e h).mono fun x hx => ?_
  obtain ⟨i, hi, hx⟩ := List.mem_flatMap.mp hx
  exact List.mem_flatMap.mpr ⟨.expr i, List.mem_map_of_mem hi, i.assigns_subset_writes hx⟩

theorem Expr.Run.agreeOff {es : List Expr} (h : Expr.Run es σ σ') :
    AgreeOff (writesOf (es.flatMap Expr.occurrences)) σ σ' := by
  induction es generalizing σ with
  | nil => exact AgreeOff.of_eq _ h
  | cons e es ih =>
    obtain ⟨a, τ, he, h⟩ := h
    rw [List.flatMap_cons, Node.writesOf_append]
    exact he.agreeOff_occurrences.append (ih h)

theorem Declarator.Runs.agreeOff {d : Declarator} (h : d.Runs σ σ') :
    AgreeOff (writesOf d.nodes) σ σ' := by
  obtain ⟨-, -, τ, hdims, h⟩ := h
  have hself : d.symbol ∈ writesOf d.nodes := by simp [Node.writesOf, Declarator.nodes, Node.writes]
  have hexprs (es : List Expr) (hes : es ⊆ d.exprs) :
      writesOf (es.flatMap Expr.occurrences) ⊆ writesOf d.nodes :=
    Node.writesOf_subset fun i hi => by
      obtain ⟨e, he, hi⟩ := List.mem_flatMap.mp hi
      exact List.mem_cons_of_mem _ (List.mem_flatMap.mpr ⟨e, hes he, hi⟩)
  have hdims' := hdims.agreeOff.mono (hexprs _ (List.subset_append_left _ _))
  have hinit (i : Initializer) (hi : d.init = some i) : i.exprs ⊆ d.exprs := by
    simp [Declarator.exprs, hi]
  cases hd : d.init with
  | none =>
    rw [hd] at h
    obtain ⟨n, rfl⟩ := h
    exact hdims'.update hself n
  | some i =>
    rw [hd] at h
    cases i with
    | expr e =>
      obtain ⟨n, τ', he, rfl⟩ := h
      have hsub := hexprs [e] (hinit (.expr e) hd)
      rw [List.flatMap_singleton] at hsub
      exact (hdims'.trans (he.agreeOff_occurrences.mono hsub)).update hself n
    | list is =>
      obtain ⟨n, τ', hes, rfl⟩ := h
      exact (hdims'.trans (hes.agreeOff.mono (hexprs _ (hinit (.list is) hd)))).update hself n

theorem Declarator.RunAll.agreeOff {ds : List Declarator} (h : Declarator.RunAll ds σ σ') :
    AgreeOff (writesOf (ds.flatMap Declarator.nodes)) σ σ' := by
  induction ds generalizing σ with
  | nil => exact AgreeOff.of_eq _ h
  | cons d ds ih =>
    obtain ⟨τ, hd, h⟩ := h
    rw [List.flatMap_cons, Node.writesOf_append]
    exact hd.agreeOff.append (ih h)

theorem Enters.agreeOff {init : Option ForInit} (h : Enters init σ σ') :
    AgreeOff (writesOf ((init.map ForInit.nodes).getD [])) σ σ' := by
  cases init with
  | none => exact AgreeOff.of_eq _ h
  | some i =>
    cases i with
    | decl d => exact Declarator.RunAll.agreeOff h
    | expr e s =>
      obtain ⟨n, h⟩ := h
      exact h.agreeOff_occurrences
    | null s => exact AgreeOff.of_eq _ h

theorem Tests.agreeOff {cond : Option Expr} {b : Bool} (h : Tests cond b σ σ') :
    AgreeOff (writesOf (optionNodes cond)) σ σ' := by
  cases cond with
  | none => exact AgreeOff.of_eq _ h.2
  | some c =>
    obtain ⟨n, h, -⟩ := h
    exact h.agreeOff_occurrences

theorem Steps.agreeOff {incr : Option Expr} (h : Steps incr σ σ') :
    AgreeOff (writesOf (optionNodes incr)) σ σ' := by
  cases incr with
  | none => exact AgreeOff.of_eq _ h
  | some e =>
    obtain ⟨n, h⟩ := h
    exact h.agreeOff_occurrences

end Parts

section Loop

variable {cond incr : Option Expr} {body : Behaviour} {xs : List Symbol}
variable {σ σ' : Values}

theorem Iterates.agreeOff {runs : List (Values × Values)}
    (h : Iterates cond incr body σ runs σ') (hcond : writesOf (optionNodes cond) ⊆ xs)
    (hincr : writesOf (optionNodes incr) ⊆ xs)
    (hbody : ∀ {σ g σ'}, body σ g σ' → AgreeOff xs σ σ') : AgreeOff xs σ σ' := by
  induction h with
  | start => exact AgreeOff.refl xs σ
  | next _ htest hb _ hstep ih =>
    exact ((ih.trans (htest.agreeOff.mono hcond)).trans (hbody hb)).trans
      (hstep.agreeOff.mono hincr)

theorem Loops.agreeOff {g : Signal} (h : Loops cond incr body σ g σ')
    (hcond : writesOf (optionNodes cond) ⊆ xs) (hincr : writesOf (optionNodes incr) ⊆ xs)
    (hbody : ∀ {σ g σ'}, body σ g σ' → AgreeOff xs σ σ') : AgreeOff xs σ σ' := by
  obtain ⟨runs, τ, hit, h⟩ := h
  refine (hit.agreeOff hcond hincr hbody).trans ?_
  obtain ⟨htest, -⟩ | ⟨υ, htest, ⟨hb, -⟩ | ⟨hb, -⟩⟩ := h
  · exact htest.agreeOff.mono hcond
  · exact (htest.agreeOff.mono hcond).trans (hbody hb)
  · exact (htest.agreeOff.mono hcond).trans (hbody hb)

end Loop

namespace Stmt

mutual

/-- A statement changes only what some part of it writes. -/
theorem Runs.agreeOff : ∀ (s : Stmt) {σ σ' : Values} {g : Signal}, s.Runs σ g σ' →
    AgreeOff (writesOf s.nodes) σ σ'
  | .null _, _, _, _, h | .break _, _, _, _, h | .continue _, _, _, _, h
  | .ret none _, _, _, _, h => AgreeOff.of_eq _ h.2
  | .decl ds _, _, _, _, h => h.2.agreeOff
  | .expr e _, _, _, _, ⟨_, _, h⟩ | .ret (some e) _, _, _, _, ⟨_, _, h⟩ => h.agreeOff_occurrences
  | .compound ss _, _, _, _, h => RunAll.agreeOff ss h
  | .branch c t none _, σ, σ', g, ⟨n, τ, hc, h⟩ => by
    rw [nodes, Node.writesOf_append]
    refine hc.agreeOff_occurrences.append ?_
    split at h
    · exact AgreeOff.of_eq _ h.2
    · exact Runs.agreeOff t h
  | .branch c t (some e) _, σ, σ', g, ⟨n, τ, hc, h⟩ => by
    rw [nodes, List.append_assoc, Node.writesOf_append, Node.writesOf_append]
    refine hc.agreeOff_occurrences.append ?_
    split at h
    · exact (Runs.agreeOff e h).mono (List.subset_append_right _ _)
    · exact (Runs.agreeOff t h).mono (List.subset_append_left _ _)
  | .forLoop f b s, σ, σ', g, ⟨τ, hinit, h⟩ => by
    -- all three clauses are parts of the header
    have hsub {ns : List Node} (hns : ns ⊆ f.nodes) :
        writesOf ns ⊆ writesOf (forLoop f b s).nodes :=
      Node.writesOf_subset (List.subset_append_of_subset_left _ hns)
    have hinit' := hinit.agreeOff.mono (hsub (by simp [ForHeader.nodes]))
    refine hinit'.trans (h.agreeOff (hsub (by simp [ForHeader.nodes]))
      (hsub (by simp [ForHeader.nodes])) fun hb => ?_)
    exact (Runs.agreeOff b hb).mono (Node.writesOf_subset (List.subset_append_right _ _))
  | .whileLoop c b s, σ, σ', g, h => by
    rw [nodes, Node.writesOf_append]
    exact Loops.agreeOff h (List.subset_append_left _ _) (List.nil_subset _) fun hb =>
      (Runs.agreeOff b hb).mono (List.subset_append_right _ _)
  | .doWhile b c s, σ, σ', g, h => by
    rw [nodes, Node.writesOf_append]
    have hbody {σ g σ'} (hb : b.Runs σ g σ') :
        AgreeOff (writesOf b.nodes ++ writesOf c.occurrences) σ σ' :=
      (Runs.agreeOff b hb).mono (List.subset_append_left _ _)
    obtain ⟨e, τ, hb, -, h⟩ | ⟨h, -⟩ | ⟨h, -⟩ := h
    · exact (hbody hb).trans
        (h.agreeOff (List.subset_append_right _ _) (List.nil_subset _) hbody)
    · exact hbody h
    · exact hbody h
  | .switch .., _, _, _, h | .caseLabel .., _, _, _, h | .defaultLabel _, _, _, _, h
  | .goto .., _, _, _, h | .label .., _, _, _, h => h.elim

theorem RunAll.agreeOff : ∀ (ss : List Stmt) {σ σ' : Values} {g : Signal}, RunAll ss σ g σ' →
    AgreeOff (writesOf (nodesOf ss)) σ σ'
  | [], _, _, _, h => AgreeOff.of_eq _ h.2
  | s :: ss, σ, σ', g, h => by
    rw [nodesOf, Node.writesOf_append]
    obtain ⟨τ, hs, h⟩ | ⟨-, h⟩ := h
    · exact (Runs.agreeOff s hs).append (RunAll.agreeOff ss h)
    · exact (Runs.agreeOff s h).mono (List.subset_append_left _ _)

end

end Stmt

end LoopLegality

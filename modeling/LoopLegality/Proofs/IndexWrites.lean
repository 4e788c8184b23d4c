import LoopLegality.Proofs.Approval

namespace LoopLegality

/-- A part of a tree that names a variable as written, though no access of the tree is a write of
it: its address is taken, a member of it is written, or the part stands in the operand of a
`sizeof`, which is not evaluated. -/
inductive Node.Hides (x : Symbol) (ns : List Node) : Node → Prop
  | address (e s) : Hides x ns (.expr (.unary .addressOf e s))
  | member {o} (op m a s r s') (hx : x ∈ o.targets) :
      Hides x ns (.expr (.assign op (.field o m a s) r s'))
  | counter {o} (op m a s s') (hx : x ∈ o.targets) :
      Hides x ns (.expr (.unary op (.field o m a s) s'))
  | operand {e i s} (hs : .expr (.sizeOf e s) ∈ ns) (hi : i ∈ e.nodes) : Hides x ns (.expr i)

/-- Every part that writes the variable hides it. -/
def Node.Guarded (x : Symbol) (ns : List Node) : Prop := ∀ n ∈ ns, x ∈ n.writes → n.Hides x ns

namespace Node

variable {x : Symbol} {n : Node} {ns ms : List Node}

theorem Hides.mono (h : n.Hides x ns) (hsub : ns ⊆ ms) : n.Hides x ms := by
  cases h with
  | address e s => exact .address e s
  | member op m a s r s' hx => exact .member op m a s r s' hx
  | counter op m a s s' hx => exact .counter op m a s s' hx
  | operand hs hi => exact .operand (hsub hs) hi

theorem guarded_nil : Guarded x [] := nofun

theorem Guarded.append (hn : Guarded x ns) (hm : Guarded x ms) : Guarded x (ns ++ ms) := by
  intro n hmem hx
  obtain hmem | hmem := List.mem_append.mp hmem
  · exact (hn n hmem hx).mono (List.subset_append_left ns ms)
  · exact (hm n hmem hx).mono (List.subset_append_right ns ms)

theorem Guarded.cons (h : Guarded x ns) (hself : x ∈ n.writes → n.Hides x (n :: ns)) :
    Guarded x (n :: ns) := by
  intro m hmem hx
  obtain rfl | hmem := List.mem_cons.mp hmem
  · exact hself hx
  · exact (h m hmem hx).mono (List.subset_cons_self n ns)

theorem guarded_flatMap {α : Type} {f : α → List Node} {as : List α}
    (h : ∀ a ∈ as, Guarded x (f a)) : Guarded x (as.flatMap f) := by
  induction as with
  | nil => exact guarded_nil
  | cons a as ih =>
    rw [List.forall_mem_cons] at h
    exact h.1.append (ih h.2)

theorem Guarded.cons_of_quiet (h : Guarded x ns) (hn : n.writes = []) : Guarded x (n :: ns) :=
  h.cons fun hx => by
    rw [hn] at hx
    cases hx

theorem guarded_leaf (hn : n.writes = []) : Guarded x [n] := guarded_nil.cons_of_quiet hn

end Node

theorem Expr.map_nodesOf (es : List Expr) :
    (nodesOf es).map Node.expr = es.flatMap Expr.occurrences := by
  induction es with
  | nil => rfl
  | cons e es ih => rw [nodesOf, List.map_append, ih, List.flatMap_cons, occurrences]

namespace Touch

open Node (Guarded guarded_leaf guarded_flatMap)

variable {c : Context} {x : Symbol} {ts : List Touch}

theorem ne_of_one {t : Touch} (h : one c t = .ok ts) (hw : t.isWrite = true)
    (hx : x ∈ c.indices) : t.symbol ≠ x := by
  rintro rfl
  simp [one, hw, hx, refuse] at h

theorem targets_eq_of_chain {b : Expr} {y : Symbol} (h : (chain b).2.ident? = some y) :
    b.targets = [y] := by
  fun_induction chain b with
  | case1 b i s r ih => exact ih h
  | case2 e hne =>
    obtain ⟨s, rfl⟩ := Expr.ident?_eq_some h
    rfl

theorem guarded_subscript {b i : Expr} (hb : Guarded x b.occurrences)
    (hi : Guarded x i.occurrences) (s : Span) : Guarded x (Expr.subscript b i s).occurrences := by
  simpa [Expr.occurrences, Expr.nodes] using
    (hb.append hi).cons_of_quiet (n := .expr (.subscript b i s)) rfl

namespace Task

/-- No part that the task looks at writes the variable, but for hidden ones. -/
def Guards (x : Symbol) : Task → Prop
  | touch y w _ _ => w = true → y ≠ x
  | effects .. => True
  | expr e | owner e | address e => Guarded x e.occurrences
  | indices e => (∃ y, (chain e).2.ident? = some y) → Guarded x e.occurrences
  -- if the variable is among what a target may change, the target is a member of it
  | target e => Guarded x e.occurrences ∧
      (x ∈ e.targets → ∃ o m a s, e = .field o m a s ∧ x ∈ o.targets)

variable {p : Task} {qs : List Task}

theorem guarded_of_subscript? {b i : Expr} {s : Span} {w : Bool}
    (h : subscript? c b i s w = some qs) (hq : ∀ q ∈ qs, q.Guards x) :
    Guarded x (Expr.subscript b i s).occurrences ∧ (w = true → x ∉ b.targets) := by
  obtain ⟨y, hy, rfl⟩ := Option.map_eq_some_iff.mp h
  have hb : (chain b).2.ident? = some y := ident?_of_array? (e := .subscript b i s) hy
  simp only [List.forall_mem_cons] at hq
  obtain ⟨hw, hindices, hi, -⟩ := hq
  refine ⟨guarded_subscript (hindices ⟨y, hb⟩) hi s, fun htrue hmem => ?_⟩
  rw [targets_eq_of_chain hb, List.mem_singleton] at hmem
  exact hw htrue hmem.symm

theorem guards_of_steps? (h : p.steps? c = some qs) (hq : ∀ q ∈ qs, q.Guards x) : p.Guards x := by
  cases p with
  | touch => cases h
  | effects => trivial
  | expr e =>
    cases e with
    | int | float | char | str | ident | sizeOfType => exact guarded_leaf rfl
    | sizeOf e s =>
      intro n hn hw
      obtain ⟨i, hi, rfl⟩ := List.mem_map.mp hn
      obtain rfl | hi := List.mem_cons.mp hi
      · cases hw
      · -- nothing is collected of the operand, so all of it is hidden
        exact .operand List.mem_cons_self hi
    | field o m a s =>
      cases h
      exact Guarded.cons_of_quiet (hq _ List.mem_cons_self) rfl
    | subscript => exact (guarded_of_subscript? h hq).1
    | call f args s =>
      obtain ⟨y, hy, rfl⟩ := Option.map_eq_some_iff.mp h
      obtain ⟨s', rfl⟩ := Expr.ident?_eq_some hy
      have hargs := (List.forall_mem_append.mp hq).1
      rw [List.forall_mem_map] at hargs
      have hf : Guarded x (Expr.ident y s').occurrences := guarded_leaf rfl
      have hall := hf.append (guarded_flatMap hargs)
      rw [← Expr.map_nodesOf] at hall
      simpa [Guards, Expr.occurrences, Expr.nodes] using
        hall.cons_of_quiet (n := .expr (.call (.ident y s') args s)) rfl
    | unary op e s =>
      cases op with
      | plus | neg | not | complement =>
        cases h
        exact Guarded.cons_of_quiet (hq _ List.mem_cons_self) rfl
      | preIncr | preDecr | postIncr | postDecr =>
        cases h
        simp only [List.forall_mem_cons] at hq
        obtain ⟨he, ⟨-, htarget⟩, -⟩ := hq
        refine Guarded.cons he fun hw => ?_
        obtain ⟨o, m, a, s', rfl, ho⟩ := htarget hw
        exact .counter _ m a s' s ho
      | addressOf =>
        cases h
        exact Guarded.cons (hq _ List.mem_cons_self) fun _ => .address e s
      | deref => cases h
    | binary op l r s =>
      cases h
      simp only [List.forall_mem_cons] at hq
      have hall : Guarded x (l.occurrences ++ r.occurrences) := Guarded.append hq.1 hq.2.1
      simpa [Guards, Expr.occurrences, Expr.nodes] using
        hall.cons_of_quiet (n := .expr (.binary op l r s)) rfl
    | assign op l r s =>
      -- a compound assignment collects the old value in between
      obtain ⟨⟨hl, htarget⟩, hr⟩ : (target l).Guards x ∧ (expr r).Guards x := by
        cases op <;> cases h <;> exact ⟨hq _ (by simp), hq _ (by simp)⟩
      have hall := (hl.append hr).cons (n := .expr (.assign op l r s)) fun hw => by
        obtain ⟨o, m, a, s', rfl, ho⟩ := htarget hw
        exact .member op m a s' r s ho
      simpa [Guards, Expr.occurrences, Expr.nodes] using hall
    | conditional t y n s =>
      cases h
      simp only [List.forall_mem_cons] at hq
      have hall : Guarded x (t.occurrences ++ y.occurrences ++ n.occurrences) :=
        (Guarded.append hq.1 hq.2.1).append hq.2.2.1
      simpa [Guards, Expr.occurrences, Expr.nodes] using
        hall.cons_of_quiet (n := .expr (.conditional t y n s)) rfl
    | cast t e s =>
      cases h
      exact Guarded.cons_of_quiet (hq _ List.mem_cons_self) rfl
    | comma es s =>
      cases h
      rw [List.forall_mem_map] at hq
      have hall := guarded_flatMap hq
      rw [← Expr.map_nodesOf] at hall
      exact hall.cons_of_quiet rfl
  | indices e =>
    rintro ⟨y, hy⟩
    cases e with
    | subscript b i s =>
      cases h
      simp only [List.forall_mem_cons] at hq
      exact guarded_subscript (hq.1 ⟨y, hy⟩) hq.2.1 s
    | ident => exact guarded_leaf rfl
    | _ => cases hy
  | target e =>
    cases e with
    | ident y s =>
      cases h
      refine ⟨guarded_leaf rfl, fun hmem => ?_⟩
      exact absurd (List.mem_singleton.mp hmem).symm (hq _ List.mem_cons_self rfl)
    | field o m a s =>
      cases h
      simp only [List.forall_mem_cons] at hq
      refine ⟨Guarded.cons_of_quiet hq.1 rfl, fun hmem => ⟨o, m, a, s, rfl, ?_⟩⟩
      exact (List.mem_cons.mp hmem).resolve_left (hq.2.1 rfl).symm
    | subscript b i s =>
      obtain ⟨hall, hb⟩ := guarded_of_subscript? h hq
      exact ⟨hall, fun hmem => absurd hmem (hb rfl)⟩
    | _ => cases h
  | owner e =>
    cases e with
    | ident => exact guarded_leaf rfl
    | subscript => exact (guarded_of_subscript? h hq).1
    | _ => cases h
  | address e =>
    cases e with
    | ident => exact guarded_leaf rfl
    | subscript b i s =>
      cases h
      simp only [List.forall_mem_cons] at hq
      exact guarded_subscript hq.2.1 hq.1 s
    | field =>
      cases h
      exact Guarded.cons_of_quiet (hq _ List.mem_cons_self) rfl
    | _ => cases h

theorem guards_of_run (hx : x ∈ c.indices) (p : Task) (h : p.run c = .ok ts) : p.Guards x := by
  refine Task.induction (P := fun p _ => p.Guards x) ?_ ?_ p ts h
  · exact fun y w is s hone hw => ne_of_one hone hw hx
  · intro p qs tss hrun hqs htss
    refine guards_of_steps? hqs ?_
    clear hrun hqs
    induction htss with
    | nil => nofun
    | cons hq _ ih => exact List.forall_mem_cons.mpr ⟨hq, ih⟩

end Task

/-- Where evaluation is collected, the indices of the loops around it are written by hidden parts
at most. -/
theorem guarded_ofExpr (hx : x ∈ c.indices) (e : Expr) (h : ofExpr c e = .ok ts) :
    Guarded x e.occurrences :=
  Task.guards_of_run hx (.expr e) h

theorem guarded_ofExprs (hx : x ∈ c.indices) (es : List Expr) (h : ofExprs c es = .ok ts) :
    ∀ e ∈ es, Guarded x e.occurrences := by
  intro e he
  obtain ⟨us, hus, -⟩ := among_ofExprs he h
  exact guarded_ofExpr hx e hus

theorem guarded_ofDeclarator {d : Declarator} (hx : x ∈ c.indices)
    (h : ofDeclarator c d = .ok ts) : Guarded x d.nodes := by
  rw [ofDeclarator] at h
  split at h
  · cases h
  · obtain ⟨ts₁, h₁, h⟩ := bind_eq_ok.mp h
    obtain ⟨ts₂, h₂, h⟩ := bind_eq_ok.mp h
    obtain ⟨ts₃, h₃, h⟩ := bind_eq_ok.mp h
    have hexprs : Guarded x (d.exprs.flatMap Expr.occurrences) := by
      rw [Declarator.exprs, List.flatMap_append]
      exact (guarded_flatMap (guarded_ofExprs hx _ h₁)).append
        (guarded_flatMap (guarded_ofExprs hx _ h₃))
    refine hexprs.cons fun hmem => ?_
    exact absurd (List.mem_singleton.mp hmem).symm (ne_of_one h₂ rfl hx)

theorem guarded_ofDeclarators {ds : List Declarator} (hx : x ∈ c.indices)
    (h : ofDeclarators c ds = .ok ts) : ∀ d ∈ ds, Guarded x d.nodes := by
  intro d hd
  obtain ⟨us, hus, -⟩ := ofDeclarator_of_mem hd h
  exact guarded_ofDeclarator hx hus

end Touch

/-- Every part of the statement that writes the variable stands in the header of a loop or hides
it. -/
def Stmt.Accounts (x : Symbol) (st : Stmt) : Prop :=
  ∀ n ∈ st.nodes, x ∈ n.writes → (∃ f, st.HasLoop f ∧ n ∈ f.nodes) ∨ n.Hides x st.nodes

namespace Stmt

variable {c : Touch.Context} {x : Symbol}

theorem Accounts.of_guarded {st : Stmt} (h : Node.Guarded x st.nodes) : st.Accounts x :=
  fun n hn hw => Or.inr (h n hn hw)

theorem Accounts.lift {st part : Stmt} (h : part.Accounts x) (hsub : part.nodes ⊆ st.nodes)
    (hloop : ∀ f, part.HasLoop f → st.HasLoop f) {n : Node} (hn : n ∈ part.nodes)
    (hw : x ∈ n.writes) : (∃ f, st.HasLoop f ∧ n ∈ f.nodes) ∨ n.Hides x st.nodes := by
  obtain ⟨f, hf, hnf⟩ | hhide := h n hn hw
  · exact Or.inl ⟨f, hloop f hf, hnf⟩
  · exact Or.inr (hhide.mono hsub)

theorem exists_mem_nodes {n : Node} {ss : List Stmt} (hn : n ∈ nodesOf ss) :
    ∃ st ∈ ss, n ∈ st.nodes := by
  induction ss with
  | nil => cases hn
  | cons st ss ih =>
    obtain hn | hn := List.mem_append.mp hn
    · exact ⟨st, List.mem_cons_self, hn⟩
    · obtain ⟨st', hst', hn⟩ := ih hn
      exact ⟨st', List.mem_cons_of_mem _ hst', hn⟩

theorem Accounts.compound {ss : List Stmt} (h : ∀ st ∈ ss, st.Accounts x) (s : Site) :
    (Stmt.compound ss s).Accounts x := by
  intro n hn hw
  obtain ⟨st, hst, hn⟩ := exists_mem_nodes hn
  have hsub : st.nodes ⊆ (Stmt.compound ss s).nodes := nodes_subset_nodesOf hst
  exact (h st hst).lift hsub (fun f hf => .item s hst hf) hn hw

theorem Accounts.forLoop {b : Stmt} (h : b.Accounts x) (f : ForHeader) (s : Site) :
    (Stmt.forLoop f b s).Accounts x := by
  intro n hn hw
  obtain hn | hn := List.mem_append.mp hn
  · exact Or.inl ⟨f, .self f b s, hn⟩
  · exact h.lift (List.subset_append_right _ _) (fun g hg => .body f s hg) hn hw

theorem Accounts.branch {e : Expr} {y : Stmt} {o : Option Stmt} (he : Node.Guarded x e.occurrences)
    (hy : y.Accounts x) (ho : ∀ z, o = some z → z.Accounts x) (s : Site) :
    (Stmt.branch e y o s).Accounts x := by
  have hnodes : ∀ m, m ∈ (Stmt.branch e y o s).nodes ↔
      m ∈ e.occurrences ∨ m ∈ y.nodes ∨ ∃ z, o = some z ∧ m ∈ z.nodes := by
    cases o <;> simp [nodes]
  intro n hn hw
  obtain hmem | hmem | ⟨z, rfl, hmem⟩ := (hnodes n).mp hn
  · exact Or.inr ((he n hmem hw).mono fun m hm => (hnodes m).mpr (.inl hm))
  · exact hy.lift (fun m hm => (hnodes m).mpr (.inr (.inl hm))) (fun f hf => .yes e o s hf) hmem hw
  · have hz := ho z rfl
    exact hz.lift (fun m hm => (hnodes m).mpr (.inr (.inr ⟨z, rfl, hm⟩)))
      (fun f hf => .no e y s hf) hmem hw

mutual

/-- A statement that is collected accounts for every write of an index of the loops around it. -/
theorem accounts_of_walks : ∀ (st : Stmt) {nest : List CountedLoop} {t t' : Trail},
    Trail.Walks c nest st t t' → x ∈ nest.map (·.index) → st.Accounts x
  | .null _ => fun _ _ => .of_guarded Node.guarded_nil
  | .decl ds s => fun h hx => by
    obtain h | ⟨_, _, _, ⟨⟩, -⟩ := h
    obtain ⟨ts, hts, -⟩ := bind_eq_ok.mp h
    exact .of_guarded (Node.guarded_flatMap (Touch.guarded_ofDeclarators hx hts))
  | .expr e s => fun h hx => by
    obtain h | ⟨_, _, _, ⟨⟩, -⟩ := h
    obtain ⟨ts, hts, -⟩ := bind_eq_ok.mp h
    exact .of_guarded (Touch.guarded_ofExpr hx e (Touch.ofStatementExpr_eq_ok hts))
  | .compound ss s => fun h hx => by
    refine .compound (accountsOf_of_walks ss fun st hst => ?_) s
    obtain ⟨t₁, t₂, h, -⟩ := h.compound hst
    exact ⟨_, t₁, t₂, h, hx⟩
  | .forLoop f b s => fun h hx => by
    obtain h | ⟨_, _, _, ⟨⟩, -⟩ := h
    obtain ⟨l, -, t₁, h⟩ := Trail.walk_forLoop_eq_ok h
    exact .forLoop (accounts_of_walks b h (by simp [hx])) f s
  | .branch e y none s => fun h hx => by
    obtain h | ⟨_, _, _, ⟨⟩, -⟩ := h
    obtain ⟨ts, hts, h⟩ := bind_eq_ok.mp h
    exact .branch (Touch.guarded_ofExpr hx e hts) (accounts_of_walks y (Or.inl h) hx) (by nofun) s
  | .branch e y (some z) s => fun h hx => by
    obtain h | ⟨_, _, _, ⟨⟩, -⟩ := h
    obtain ⟨ts, hts, h⟩ := bind_eq_ok.mp h
    obtain ⟨t₁, h₁, h⟩ := bind_eq_ok.mp h
    refine .branch (Touch.guarded_ofExpr hx e hts) (accounts_of_walks y (Or.inl h₁) hx) ?_ s
    rintro _ ⟨⟩
    exact accounts_of_walks z (Or.inl h) hx
  | .ret .. | .whileLoop .. | .doWhile .. | .switch .. | .caseLabel .. | .defaultLabel _
  | .break _ | .continue _ | .goto .. | .label .. => fun h _ => by
    obtain h | ⟨_, _, _, ⟨⟩, -⟩ := h
    cases h

theorem accountsOf_of_walks : ∀ ss : List Stmt,
    (∀ st ∈ ss, ∃ nest t t', Trail.Walks c nest st t t' ∧ x ∈ nest.map (·.index)) →
      ∀ st ∈ ss, st.Accounts x
  | [] => nofun
  | st :: ss => fun h => by
    obtain ⟨⟨nest, t, t', hst, hx⟩, hss⟩ := List.forall_mem_cons.mp h
    exact List.forall_mem_cons.mpr ⟨accounts_of_walks st hst hx, accountsOf_of_walks ss hss⟩

end

end Stmt

namespace Trail

variable {c : Touch.Context} {sel : Selection} {l : ForLoop}

def Enters (c : Touch.Context) (l : ForLoop) : Prop :=
  ∃ cl nest t t', CountedLoop.ofHeader? l.header = some cl ∧ Walks c (nest ++ [cl]) l.body t t'

mutual

/-- Every loop in a statement that is collected is entered. -/
theorem enters_of_mem_loopsAt (hl : sel.stmt.forLoop? = some l) : ∀ (st : Stmt) {depth : Nat}
    {before after : List Stmt} {nest : List CountedLoop} {t t' : Trail},
    sel ∈ Selection.loopsAt depth before after st → Walks c nest st t t' → Enters c l
  | .forLoop f b s => fun hsel h => by
    obtain h | ⟨_, _, _, ⟨⟩, -⟩ := h
    obtain ⟨cl, hcl, t₁, h⟩ := walk_forLoop_eq_ok h
    obtain rfl | hsel := List.mem_cons.mp hsel
    · cases hl
      exact ⟨cl, _, _, _, hcl, h⟩
    · exact enters_of_mem_loopsAt hl b hsel h
  | .compound ss s => fun hsel h => by
    refine enters_of_mem_loopsOf hl ss hsel fun st hst => ?_
    obtain ⟨t₁, t₂, h, -⟩ := h.compound hst
    exact ⟨_, t₁, t₂, h⟩
  | .branch e y none s => fun hsel h => by
    obtain h | ⟨_, _, _, ⟨⟩, -⟩ := h
    obtain ⟨ts, -, h⟩ := bind_eq_ok.mp h
    exact enters_of_mem_loopsAt hl y hsel (Or.inl h)
  | .branch e y (some z) s => fun hsel h => by
    obtain h | ⟨_, _, _, ⟨⟩, -⟩ := h
    obtain ⟨ts, -, h⟩ := bind_eq_ok.mp h
    obtain ⟨t₁, h₁, h⟩ := bind_eq_ok.mp h
    obtain hsel | hsel := List.mem_append.mp hsel
    · exact enters_of_mem_loopsAt hl y hsel (Or.inl h₁)
    · exact enters_of_mem_loopsAt hl z hsel (Or.inl h)
  | .null _ | .decl .. | .expr .. => fun hsel _ => by cases hsel
  | .ret .. | .whileLoop .. | .doWhile .. | .switch .. | .caseLabel .. | .defaultLabel _
  | .break _ | .continue _ | .goto .. | .label .. => fun _ h => by
    obtain h | ⟨_, _, _, ⟨⟩, -⟩ := h
    cases h

theorem enters_of_mem_loopsOf (hl : sel.stmt.forLoop? = some l) : ∀ (ss : List Stmt) {depth : Nat}
    {before : List Stmt}, sel ∈ Selection.loopsOf depth before ss →
      (∀ st ∈ ss, ∃ nest t t', Walks c nest st t t') → Enters c l
  | [] => nofun
  | st :: ss => fun hsel h => by
    obtain ⟨⟨nest, t, t', hst⟩, hss⟩ := List.forall_mem_cons.mp h
    obtain hsel | hsel := List.mem_append.mp hsel
    · exact enters_of_mem_loopsAt hl st hsel hst
    · exact enters_of_mem_loopsOf hl ss hsel hss

end

end Trail

/-- In a region that is collected, every loop counts upward, and its body writes the index exactly
if it does so in the header of a nested loop, by taking the address of the index, by writing a
member of it, or in the operand of a `sizeof`. -/
theorem Collector.bodyWrites_index_iff {c : Collector} {stmts : List Stmt} {set : AccessSet}
    (h : c.collect stmts = .ok set) {sel : Selection} {l : ForLoop}
    (hsel : sel ∈ Selection.loopsOf 0 [] stmts) (hl : sel.stmt.forLoop? = some l) :
    ∃ cl, CountedLoop.ofHeader? l.header = some cl ∧
      (l.bodyWrites cl.index = true ↔ ∃ n ∈ l.body.nodes, cl.index ∈ n.writes ∧
        ((∃ f, l.body.HasLoop f ∧ n ∈ f.nodes) ∨ n.Hides cl.index l.body.nodes)) := by
  obtain ⟨tr, htr, -⟩ := collect_eq_ok h
  obtain ⟨cl, nest, t, t', hcl, hwalk⟩ : Trail.Enters c.context l := by
    refine Trail.enters_of_mem_loopsOf hl stmts hsel fun st hst => ?_
    obtain ⟨t₁, t₂, hst, -⟩ := Trail.walkNumbered_mem hst htr
    exact ⟨[], t₁, t₂, Or.inl hst⟩
  have haccounts : l.body.Accounts cl.index := Stmt.accounts_of_walks l.body hwalk (by simp)
  refine ⟨cl, hcl, ?_⟩
  rw [ForLoop.bodyWrites, List.contains_iff_mem, Stmt.mem_written, Node.writesOf, List.mem_flatMap]
  constructor
  · rintro ⟨n, hn, hw⟩
    exact ⟨n, hn, hw, haccounts n hn hw⟩
  · rintro ⟨n, hn, hw, -⟩
    exact ⟨n, hn, hw⟩

namespace ReusedIndex

open NestedBound (header)

/-- `for (i = 0; i < 2; i++) a[i] = 0;` -/
def inner : Stmt :=
  .forLoop (header 1 0 (.int 2 .none))
    (.expr (.assign .plain (.subscript (.ident 1 .none) (.ident 0 .none) .none) (.int 0 .none)
      .none) ⟨.none, []⟩) ⟨.none, []⟩

/-- `for (i = 0; i < 3; i++) for (i = 0; i < 2; i++) a[i] = 0;` -/
def outer : ForLoop := ⟨header 0 0 (.int 3 .none), inner, ⟨.none, []⟩⟩

def stmt : Stmt := .forLoop outer.header outer.body outer.site

end ReusedIndex

open ReusedIndex in
/-- A nest whose loops share one index is collected, though the body of the outer loop writes the
index in the header of the inner one. -/
theorem Collector.bodyWrites_reusedIndex :
    (∃ set, NestedBound.collector.collect [stmt] = .ok set) ∧
      (∃ sel ∈ Selection.loopsOf 0 [] [stmt], sel.stmt.forLoop? = some outer) ∧
      ∃ n ∈ outer.body.nodes, 0 ∈ n.writes ∧
        ((∃ f, outer.body.HasLoop f ∧ n ∈ f.nodes) ∨ n.Hides 0 outer.body.nodes) := by
  obtain ⟨set, h⟩ : ∃ set, NestedBound.collector.collect [stmt] = .ok set := ⟨_, rfl⟩
  have hsel : ⟨[], stmt, [], 0⟩ ∈ Selection.loopsOf 0 [] [stmt] := List.mem_cons_self
  refine ⟨⟨set, h⟩, ⟨_, hsel, rfl⟩, ?_⟩
  obtain ⟨cl, hcl, hiff⟩ := bodyWrites_index_iff h hsel (l := outer) rfl
  cases hcl
  exact hiff.mp (by decide)

end LoopLegality

import LoopLegality.Proofs.Frame
import LoopLegality.Proofs.Coverage
import Mathlib.Logic.Relation

namespace LoopLegality

abbrev Expr.Reaches : Expr → Expr → Prop := Relation.ReflTransGen Expr.Evaluates

def Expr.Visits (e : Expr) (n : Node) : Prop := ∃ i, e.Reaches i ∧ n = .expr i

def Declarator.Visits (d : Declarator) (n : Node) : Prop :=
  (∃ e ∈ d.exprs, e.Visits n) ∨ n = .declarator d

def ForInit.Visits : ForInit → Node → Prop
  | .decl d, n => ∃ x ∈ d.declarators, x.Visits n
  | .expr e _, n => e.Visits n
  | .null _, _ => False

def ForHeader.Visits (h : ForHeader) (n : Node) : Prop :=
  (∃ i, h.init = some i ∧ i.Visits n) ∨ ∃ e, (h.cond = some e ∨ h.incr = some e) ∧ e.Visits n

/-- The expressions that running a statement may evaluate and the objects that it may declare,
and inside which of its loops. -/
inductive Stmt.Visits : Stmt → List LoopId → Use.Site → Node → Prop
  | expr {e n} (s) (h : e.Visits n) : Visits (.expr e s) [] .statement n
  | decl {ds d n} (s) (hd : d ∈ ds) (h : d.Visits n) : Visits (.decl ds s) [] .statement n
  | item {ss st ids p n} (s) (hst : st ∈ ss) (h : Visits st ids p n) :
      Visits (.compound ss s) ids p n
  | test {e n} (y z s) (h : e.Visits n) : Visits (.branch e y z s) [] .statement n
  | yes {y ids p n} (e z s) (h : Visits y ids p n) : Visits (.branch e y z s) ids p n
  | no {z ids p n} (e y s) (h : Visits z ids p n) : Visits (.branch e y (some z) s) ids p n
  | clause {h n} (b s) (hn : h.Visits n) : Visits (.forLoop h b s) [] .header n
  | body {b ids p n} (h s) (hb : Visits b ids p n) : Visits (.forLoop h b s) (h.id :: ids) p n
  | result {e n} (s) (h : e.Visits n) : Visits (.ret (some e) s) [] .statement n
  | whileTest {e n} (b s) (h : e.Visits n) : Visits (.whileLoop e b s) [] .statement n
  | whileBody {b ids p n} (e s) (h : Visits b ids p n) : Visits (.whileLoop e b s) ids p n
  | doTest {e n} (b s) (h : e.Visits n) : Visits (.doWhile b e s) [] .statement n
  | doBody {b ids p n} (e s) (h : Visits b ids p n) : Visits (.doWhile b e s) ids p n
  | switchTest {e n} (b s) (h : e.Visits n) : Visits (.switch e b s) [] .statement n
  | switchBody {b ids p n} (e s) (h : Visits b ids p n) : Visits (.switch e b s) ids p n
  | labelled {b ids p n} (l s) (h : Visits b ids p n) : Visits (.label l b s) ids p n

/-- Running the region may come to this part of it inside these loops. -/
def Visited (stmts : List Stmt) (chain : List LoopId) (site : Use.Site) (n : Node) : Prop :=
  ∃ st ∈ stmts, st.Visits chain site n

/-- What a part of a tree does by itself. -/
def Node.Acts (c : Touch.Context) : Node → Use → Prop
  | .expr e, u => e.Acts c u
  | .declarator d, u => u = .of d.symbol none true

section Uses

variable {c : Touch.Context} {u : Use}

theorem Expr.uses_iff_visits {e : Expr} : e.Uses c u ↔ ∃ n, e.Visits n ∧ n.Acts c u := by
  constructor
  · intro h
    induction h with
    | @own e u h => exact ⟨.expr e, ⟨e, .refl, rfl⟩, h⟩
    | through h _ ih =>
      obtain ⟨_, ⟨j, hj, rfl⟩, hn⟩ := ih
      exact ⟨.expr j, ⟨j, .head h hj, rfl⟩, hn⟩
  · rintro ⟨_, ⟨i, hi, rfl⟩, hn⟩
    induction hi using Relation.ReflTransGen.head_induction_on with
    | refl => exact .own hn
    | head h _ ih => exact .through h ih

theorem Declarator.uses_iff_visits {d : Declarator} :
    d.Uses c u ↔ ∃ n, d.Visits n ∧ n.Acts c u := by
  simp only [Uses, Expr.uses_iff_visits]
  constructor
  · rintro (⟨e, he, n, hn, hu⟩ | hu)
    · exact ⟨n, Or.inl ⟨e, he, hn⟩, hu⟩
    · exact ⟨.declarator d, Or.inr rfl, hu⟩
  · rintro ⟨n, ⟨e, he, hn⟩ | rfl, hu⟩
    · exact Or.inl ⟨e, he, n, hn, hu⟩
    · exact Or.inr hu

theorem ForInit.uses_iff_visits {i : ForInit} : i.Uses c u ↔ ∃ n, i.Visits n ∧ n.Acts c u := by
  cases i with
  | decl d =>
    simp only [Uses, Visits, Declarator.uses_iff_visits]
    constructor
    · rintro ⟨x, hx, n, hn, hu⟩
      exact ⟨n, ⟨x, hx, hn⟩, hu⟩
    · rintro ⟨n, ⟨x, hx, hn⟩, hu⟩
      exact ⟨x, hx, n, hn, hu⟩
  | expr e s => exact Expr.uses_iff_visits
  | null s => simp [Uses, Visits]

theorem ForHeader.uses_iff_visits {h : ForHeader} :
    h.Uses c u ↔ ∃ n, h.Visits n ∧ n.Acts c u := by
  simp only [Uses, ForInit.uses_iff_visits, Expr.uses_iff_visits]
  constructor
  · rintro (⟨i, hi, n, hn, hu⟩ | ⟨e, he, n, hn, hu⟩)
    · exact ⟨n, Or.inl ⟨i, hi, hn⟩, hu⟩
    · exact ⟨n, Or.inr ⟨e, he, hn⟩, hu⟩
  · rintro ⟨n, ⟨i, hi, hn⟩ | ⟨e, he, hn⟩, hu⟩
    · exact Or.inl ⟨i, hi, n, hn, hu⟩
    · exact Or.inr ⟨e, he, n, hn, hu⟩

/-- What a statement uses is what the parts that it visits do. -/
theorem Stmt.uses_iff_visits {st : Stmt} {ids : List LoopId} {p : Use.Site} :
    st.Uses c ids p u ↔ ∃ n, st.Visits ids p n ∧ n.Acts c u := by
  constructor
  · intro h
    induction h with
    | expr s h =>
      obtain ⟨n, hn, hu⟩ := Expr.uses_iff_visits.mp h
      exact ⟨n, .expr s hn, hu⟩
    | decl s hd h =>
      obtain ⟨n, hn, hu⟩ := Declarator.uses_iff_visits.mp h
      exact ⟨n, .decl s hd hn, hu⟩
    | item s hst _ ih =>
      obtain ⟨n, hn, hu⟩ := ih
      exact ⟨n, .item s hst hn, hu⟩
    | test y z s h =>
      obtain ⟨n, hn, hu⟩ := Expr.uses_iff_visits.mp h
      exact ⟨n, .test y z s hn, hu⟩
    | yes e z s _ ih =>
      obtain ⟨n, hn, hu⟩ := ih
      exact ⟨n, .yes e z s hn, hu⟩
    | no e y s _ ih =>
      obtain ⟨n, hn, hu⟩ := ih
      exact ⟨n, .no e y s hn, hu⟩
    | clause b s h =>
      obtain ⟨n, hn, hu⟩ := ForHeader.uses_iff_visits.mp h
      exact ⟨n, .clause b s hn, hu⟩
    | body h s _ ih =>
      obtain ⟨n, hn, hu⟩ := ih
      exact ⟨n, .body h s hn, hu⟩
    | result s h =>
      obtain ⟨n, hn, hu⟩ := Expr.uses_iff_visits.mp h
      exact ⟨n, .result s hn, hu⟩
    | whileTest b s h =>
      obtain ⟨n, hn, hu⟩ := Expr.uses_iff_visits.mp h
      exact ⟨n, .whileTest b s hn, hu⟩
    | whileBody e s _ ih =>
      obtain ⟨n, hn, hu⟩ := ih
      exact ⟨n, .whileBody e s hn, hu⟩
    | doTest b s h =>
      obtain ⟨n, hn, hu⟩ := Expr.uses_iff_visits.mp h
      exact ⟨n, .doTest b s hn, hu⟩
    | doBody e s _ ih =>
      obtain ⟨n, hn, hu⟩ := ih
      exact ⟨n, .doBody e s hn, hu⟩
    | switchTest b s h =>
      obtain ⟨n, hn, hu⟩ := Expr.uses_iff_visits.mp h
      exact ⟨n, .switchTest b s hn, hu⟩
    | switchBody e s _ ih =>
      obtain ⟨n, hn, hu⟩ := ih
      exact ⟨n, .switchBody e s hn, hu⟩
    | labelled l s _ ih =>
      obtain ⟨n, hn, hu⟩ := ih
      exact ⟨n, .labelled l s hn, hu⟩
  · rintro ⟨n, h, hu⟩
    induction h with
    | expr s h => exact .expr s (Expr.uses_iff_visits.mpr ⟨_, h, hu⟩)
    | decl s hd h => exact .decl s hd (Declarator.uses_iff_visits.mpr ⟨_, h, hu⟩)
    | item s hst _ ih => exact .item s hst (ih hu)
    | test y z s h => exact .test y z s (Expr.uses_iff_visits.mpr ⟨_, h, hu⟩)
    | yes e z s _ ih => exact .yes e z s (ih hu)
    | no e y s _ ih => exact .no e y s (ih hu)
    | clause b s h => exact .clause b s (ForHeader.uses_iff_visits.mpr ⟨_, h, hu⟩)
    | body h s _ ih => exact .body h s (ih hu)
    | result s h => exact .result s (Expr.uses_iff_visits.mpr ⟨_, h, hu⟩)
    | whileTest b s h => exact .whileTest b s (Expr.uses_iff_visits.mpr ⟨_, h, hu⟩)
    | whileBody e s _ ih => exact .whileBody e s (ih hu)
    | doTest b s h => exact .doTest b s (Expr.uses_iff_visits.mpr ⟨_, h, hu⟩)
    | doBody e s _ ih => exact .doBody e s (ih hu)
    | switchTest b s h => exact .switchTest b s (Expr.uses_iff_visits.mpr ⟨_, h, hu⟩)
    | switchBody e s _ ih => exact .switchBody e s (ih hu)
    | labelled l s _ ih => exact .labelled l s (ih hu)

theorem executes_iff_visited {stmts : List Stmt} {chain : List LoopId} {site : Use.Site} :
    Executes c stmts chain site u ↔ ∃ n, Visited stmts chain site n ∧ n.Acts c u := by
  simp only [Executes, Visited, Stmt.uses_iff_visits]
  constructor
  · rintro ⟨st, hst, n, hn, hu⟩
    exact ⟨n, ⟨st, hst, hn⟩, hu⟩
  · rintro ⟨n, ⟨st, hst, hn⟩, hu⟩
    exact ⟨st, hst, n, hn, hu⟩

end Uses

section Nodes

theorem Expr.nodes_subset_nodesOf {e : Expr} {es : List Expr} (h : e ∈ es) :
    e.nodes ⊆ nodesOf es := by
  induction es with
  | nil => cases h
  | cons e' es ih =>
    rw [nodesOf]
    obtain rfl | h := List.mem_cons.mp h
    · exact List.subset_append_left _ _
    · exact List.subset_append_of_subset_right _ (ih h)

theorem Expr.Locates.nodes_subset {e i : Expr} (h : e.Locates i) : i.nodes ⊆ e.nodes := by
  induction h with
  | index b i s => exact fun j hj => by simp [nodes, hj]
  | base i s _ ih => exact fun j hj => by simp [nodes, ih hj]
  | owner m a s _ ih => exact fun j hj => by simp [nodes, ih hj]

theorem Expr.Evaluates.nodes_subset {e i : Expr} (h : e.Evaluates i) : i.nodes ⊆ e.nodes := by
  intro j hj
  cases h with
  | location h => exact h.nodes_subset hj
  | address s h => simp [nodes, h.nodes_subset hj]
  | target op r s h => simp [nodes, h.nodes_subset hj]
  | item s h => simp [nodes, nodes_subset_nodesOf h hj]
  | argument f s h => simp [nodes, nodes_subset_nodesOf h hj]
  | _ => simp [nodes, hj]

theorem Expr.Reaches.nodes_subset {e i : Expr} (h : e.Reaches i) : i.nodes ⊆ e.nodes := by
  induction h with
  | refl => exact List.Subset.refl _
  | tail _ h ih => exact List.Subset.trans h.nodes_subset ih

/-- A part of a tree with all parts of it. A declarator counts alone here. -/
def Node.inner : Node → List Node
  | .expr e => e.occurrences
  | .declarator d => [.declarator d]

theorem Node.mem_inner_self (n : Node) : n ∈ n.inner := by
  cases n with
  | expr e => exact List.mem_map_of_mem e.mem_nodes_self
  | declarator d => exact List.mem_singleton_self _

theorem Expr.Visits.inner_subset {e : Expr} {n : Node} (h : e.Visits n) :
    n.inner ⊆ e.occurrences := by
  obtain ⟨i, hi, rfl⟩ := h
  exact List.map_subset _ (Reaches.nodes_subset hi)

theorem Declarator.Visits.inner_subset {d : Declarator} {n : Node} (h : d.Visits n) :
    n.inner ⊆ d.nodes := by
  intro m hm
  obtain ⟨e, he, h⟩ | rfl := h
  · exact List.mem_cons_of_mem _ (List.mem_flatMap.mpr ⟨e, he, h.inner_subset hm⟩)
  · obtain rfl := List.mem_singleton.mp hm
    exact List.mem_cons_self

theorem ForHeader.Visits.inner_subset {h : ForHeader} {n : Node} (hn : h.Visits n) :
    n.inner ⊆ h.nodes := by
  intro m hm
  rw [ForHeader.nodes, List.mem_append, List.mem_append]
  obtain ⟨i, hi, hn⟩ | ⟨e, he | he, hn⟩ := hn
  · refine Or.inl (Or.inl ?_)
    rw [hi]
    cases i with
    | decl d =>
      obtain ⟨x, hx, hn⟩ := hn
      exact List.mem_flatMap.mpr ⟨x, hx, hn.inner_subset hm⟩
    | expr e s => exact Expr.Visits.inner_subset hn hm
    | null s => exact hn.elim
  · exact Or.inl (Or.inr (by rw [he]; exact hn.inner_subset hm))
  · exact Or.inr (by rw [he]; exact hn.inner_subset hm)

theorem Stmt.nodes_subset_nodesOf {st : Stmt} {ss : List Stmt} (h : st ∈ ss) :
    st.nodes ⊆ nodesOf ss := by
  induction ss with
  | nil => cases h
  | cons st' ss ih =>
    rw [nodesOf]
    obtain rfl | h := List.mem_cons.mp h
    · exact List.subset_append_left _ _
    · exact List.subset_append_of_subset_right _ (ih h)

theorem Stmt.Visits.inner_subset {st : Stmt} {ids : List LoopId} {p : Use.Site} {n : Node}
    (h : st.Visits ids p n) : n.inner ⊆ st.nodes := by
  induction h with
  | expr s h | result s h => exact h.inner_subset
  | decl s hd h => exact fun m hm => List.mem_flatMap.mpr ⟨_, hd, h.inner_subset hm⟩
  | item s hst _ ih => exact List.Subset.trans ih (nodes_subset_nodesOf hst)
  | test y z s h => cases z <;> exact fun m hm => by simp [nodes, h.inner_subset hm]
  | yes e z s _ ih => cases z <;> exact fun m hm => by simp [nodes, ih hm]
  | no e y s _ ih => exact fun m hm => by simp [nodes, ih hm]
  | clause b s h => exact List.subset_append_of_subset_left _ h.inner_subset
  | whileTest b s h | switchTest b s h => exact List.subset_append_of_subset_left _ h.inner_subset
  | doTest b s h => exact List.subset_append_of_subset_right _ h.inner_subset
  | doBody e s _ ih => exact List.subset_append_of_subset_left _ ih
  | body h s _ ih | whileBody e s _ ih | switchBody e s _ ih =>
    exact List.subset_append_of_subset_right _ ih
  | labelled l s _ ih => exact ih

theorem Visited.inner_subset {stmts : List Stmt} {chain : List LoopId} {site : Use.Site}
    {n : Node} (h : Visited stmts chain site n) : n.inner ⊆ Stmt.nodesOf stmts := by
  obtain ⟨st, hst, h⟩ := h
  exact List.Subset.trans h.inner_subset (Stmt.nodes_subset_nodesOf hst)

theorem Visited.mem_nodes {stmts : List Stmt} {chain : List LoopId} {site : Use.Site} {n : Node}
    (h : Visited stmts chain site n) : n ∈ Stmt.nodesOf stmts :=
  h.inner_subset n.mem_inner_self

end Nodes

section Writes

variable {c : Touch.Context}

theorem Expr.Denotes.mem_targets {e : Expr} {x : Symbol} {is : Option (List Expr)}
    (h : e.Denotes x is) : x ∈ e.targets := by
  induction h with
  | name x s => exact List.mem_singleton_self x
  | member o m a s => exact List.mem_cons_self
  | element x s i s' => exact List.mem_singleton_self x
  | deeper i s _ ih => exact ih

/-- A part of a tree writes what it names, or is a call that may write what is exposed to it. -/
theorem Node.Acts.mem_writes_or_call {n : Node} {u : Use} (h : n.Acts c u)
    (hw : u.isWrite = true) :
    u.symbol ∈ n.writes ∨ ∃ f s es s', n = .expr (.call (.ident f s) es s') ∧
      u.symbol ∈ c.calls.touchedBy (c.symbols.name f) := by
  cases n with
  | declarator d =>
    cases h
    exact Or.inl (List.mem_singleton_self _)
  | expr e =>
    cases h with
    | name | member | owner | element | targetOwner => cases hw
    | assign op r s h => exact Or.inl h.mem_targets
    | increment s hop h =>
      refine Or.inl ?_
      simpa [Node.writes, Expr.writes, hop, Use.of] using h.mem_targets
    | call s es s' w h => exact Or.inr ⟨_, s, es, s', rfl, h⟩

end Writes

namespace Touch

variable {c : Context} {ts : List Touch}

def Among (c : Context) (e : Expr) (ts : List Touch) : Prop := ∃ us, ofExpr c e = .ok us ∧ us ⊆ ts

namespace Among

variable {e : Expr} {us : List Touch}

theorem of_eq_ok (h : ofExpr c e = .ok ts) : Among c e ts := ⟨ts, h, List.Subset.refl ts⟩

theorem mono (h : Among c e ts) (hsub : ts ⊆ us) : Among c e us := by
  obtain ⟨vs, hvs, hsub'⟩ := h
  exact ⟨vs, hvs, List.Subset.trans hsub' hsub⟩

theorem left (h : Among c e ts) : Among c e (ts ++ us) := h.mono (List.subset_append_left _ _)

theorem right (h : Among c e us) : Among c e (ts ++ us) := h.mono (List.subset_append_right _ _)

end Among

theorem among_ofExprs {e : Expr} {es : List Expr} (he : e ∈ es) (h : ofExprs c es = .ok ts) :
    Among c e ts := by
  induction es generalizing ts with
  | nil => cases he
  | cons e' es ih =>
    obtain ⟨ts₁, h₁, h⟩ := bind_eq_ok.mp h
    obtain ⟨ts₂, h₂, h⟩ := bind_eq_ok.mp h
    cases h
    obtain rfl | he := List.mem_cons.mp he
    · exact (Among.of_eq_ok h₁).left
    · exact (ih he h₂).right

theorem among_ofIndices {e i : Expr} {x : Symbol} (hi : e.Locates i)
    (hx : (chain e).2.ident? = some x) (h : ofIndices c e = .ok ts) : Among c i ts := by
  induction hi generalizing ts with
  | index b i s =>
    obtain ⟨ts₁, -, h⟩ := bind_eq_ok.mp h
    obtain ⟨ts₂, h₂, h⟩ := bind_eq_ok.mp h
    cases h
    exact (Among.of_eq_ok h₂).right
  | base i s _ ih =>
    obtain ⟨ts₁, h₁, h⟩ := bind_eq_ok.mp h
    obtain ⟨ts₂, -, h⟩ := bind_eq_ok.mp h
    cases h
    exact (ih hx h₁).left
  | owner => cases hx

theorem among_subscript {b i j : Expr} {s : Span} {w : Bool} {ts₁ ts₂ ts₃ : List Touch}
    (hj : Expr.Locates (.subscript b i s) j) (h₁ : element c (.subscript b i s) w = .ok ts₁)
    (h₂ : ofIndices c b = .ok ts₂) (h₃ : ofExpr c i = .ok ts₃) :
    Among c j (ts₁ ++ ts₂ ++ ts₃) := by
  obtain ⟨x, hx, -⟩ := Task.element_eq_ok_iff.mp h₁
  have hx : (chain b).2.ident? = some x := ident?_of_array? (e := .subscript b i s) hx
  cases hj with
  | index => exact (Among.of_eq_ok h₃).right
  | base _ _ hj => exact (among_ofIndices hj hx h₂).right.left

theorem among_ofOwner {o i : Expr} (hi : o.Locates i) (h : ofOwner c o = .ok ts) :
    Among c i ts := by
  cases o with
  | subscript b j s =>
    obtain ⟨ts₁, h₁, h⟩ := bind_eq_ok.mp h
    obtain ⟨ts₂, h₂, h⟩ := bind_eq_ok.mp h
    obtain ⟨ts₃, h₃, h⟩ := bind_eq_ok.mp h
    cases h
    exact among_subscript hi h₁ h₂ h₃
  | field => cases h
  | _ => cases hi

theorem among_ofTarget {e i : Expr} (hi : e.Locates i) (h : ofTarget c e = .ok ts) :
    Among c i ts := by
  cases e with
  | subscript b j s =>
    obtain ⟨ts₁, h₁, h⟩ := bind_eq_ok.mp h
    obtain ⟨ts₂, h₂, h⟩ := bind_eq_ok.mp h
    obtain ⟨ts₃, h₃, h⟩ := bind_eq_ok.mp h
    cases h
    exact among_subscript hi h₁ h₂ h₃
  | field o m a s =>
    obtain ⟨ts₁, h₁, h⟩ := bind_eq_ok.mp h
    obtain ⟨ts₂, -, h⟩ := bind_eq_ok.mp h
    cases h
    cases hi with
    | owner _ _ _ hi => exact (among_ofOwner hi h₁).left
  | _ => cases hi

theorem among_ofAddress {e i : Expr} (hi : e.Locates i) (h : ofAddress c e = .ok ts) :
    Among c i ts := by
  induction hi generalizing ts with
  | index b i s =>
    obtain ⟨ts₁, h₁, h⟩ := bind_eq_ok.mp h
    obtain ⟨ts₂, -, h⟩ := bind_eq_ok.mp h
    cases h
    exact (Among.of_eq_ok h₁).left
  | base i s _ ih =>
    obtain ⟨ts₁, -, h⟩ := bind_eq_ok.mp h
    obtain ⟨ts₂, h₂, h⟩ := bind_eq_ok.mp h
    cases h
    exact (ih h₂).right
  | owner m a s _ ih => exact ih h

theorem ofExpr_assign_eq_ok {op : AssignOp} {l r : Expr} {s : Span}
    (h : ofExpr c (.assign op l r s) = .ok ts) :
    ∃ ts₁ ts₂ ts₃, ofTarget c l = .ok ts₁ ∧ (op ≠ .plain → ofExpr c l = .ok ts₂) ∧
      ofExpr c r = .ok ts₃ ∧ ts = ts₁ ++ ts₂ ++ ts₃ := by
  obtain ⟨ts₁, h₁, h⟩ := bind_eq_ok.mp h
  cases op with
  | plain =>
    obtain ⟨ts₂, -, h⟩ := bind_eq_ok.mp h
    obtain ⟨ts₃, h₃, h⟩ := bind_eq_ok.mp h
    cases h
    exact ⟨ts₁, ts₂, ts₃, h₁, fun hne => (hne rfl).elim, h₃, rfl⟩
  | compound op =>
    obtain ⟨ts₂, h₂, h⟩ := bind_eq_ok.mp h
    obtain ⟨ts₃, h₃, h⟩ := bind_eq_ok.mp h
    cases h
    exact ⟨ts₁, ts₂, ts₃, h₁, fun _ => h₂, h₃, rfl⟩

theorem among_of_evaluates {e i : Expr} (hi : e.Evaluates i) (h : ofExpr c e = .ok ts) :
    Among c i ts := by
  cases hi with
  | @location e i hi =>
    cases e with
    | subscript b j s =>
      obtain ⟨ts₁, h₁, h⟩ := bind_eq_ok.mp h
      obtain ⟨ts₂, h₂, h⟩ := bind_eq_ok.mp h
      obtain ⟨ts₃, h₃, h⟩ := bind_eq_ok.mp h
      cases h
      exact among_subscript hi h₁ h₂ h₃
    | field o m a s =>
      obtain ⟨ts₁, h₁, h⟩ := bind_eq_ok.mp h
      obtain ⟨ts₂, -, h⟩ := bind_eq_ok.mp h
      cases h
      cases hi with
      | owner _ _ _ hi => exact (among_ofOwner hi h₁).left
    | _ => cases hi
  | address s hi => exact among_ofAddress hi h
  | @operand op e s hop =>
    cases op with
    | plus | neg | not | complement => exact .of_eq_ok h
    | preIncr | preDecr | postIncr | postDecr =>
      obtain ⟨ts₁, h₁, h⟩ := bind_eq_ok.mp h
      obtain ⟨ts₂, -, h⟩ := bind_eq_ok.mp h
      cases h
      exact (Among.of_eq_ok h₁).left
    | addressOf => exact (hop rfl).elim
    | deref => cases h
  | left op l r s =>
    obtain ⟨ts₁, h₁, h⟩ := bind_eq_ok.mp h
    obtain ⟨ts₂, -, h⟩ := bind_eq_ok.mp h
    cases h
    exact (Among.of_eq_ok h₁).left
  | right op l r s =>
    obtain ⟨ts₁, -, h⟩ := bind_eq_ok.mp h
    obtain ⟨ts₂, h₂, h⟩ := bind_eq_ok.mp h
    cases h
    exact (Among.of_eq_ok h₂).right
  | target op r s hi =>
    obtain ⟨ts₁, ts₂, ts₃, h₁, -, -, rfl⟩ := ofExpr_assign_eq_ok h
    exact (among_ofTarget hi h₁).left.left
  | old op l r s =>
    obtain ⟨ts₁, ts₂, ts₃, -, h₂, -, rfl⟩ := ofExpr_assign_eq_ok h
    exact (Among.of_eq_ok (h₂ nofun)).right.left
  | value op l r s =>
    obtain ⟨ts₁, ts₂, ts₃, -, -, h₃, rfl⟩ := ofExpr_assign_eq_ok h
    exact (Among.of_eq_ok h₃).right
  | test t y n s =>
    obtain ⟨ts₁, h₁, h⟩ := bind_eq_ok.mp h
    obtain ⟨ts₂, -, h⟩ := bind_eq_ok.mp h
    obtain ⟨ts₃, -, h⟩ := bind_eq_ok.mp h
    cases h
    exact (Among.of_eq_ok h₁).left.left
  | yes t y n s =>
    obtain ⟨ts₁, -, h⟩ := bind_eq_ok.mp h
    obtain ⟨ts₂, h₂, h⟩ := bind_eq_ok.mp h
    obtain ⟨ts₃, -, h⟩ := bind_eq_ok.mp h
    cases h
    exact (Among.of_eq_ok h₂).right.left
  | no t y n s =>
    obtain ⟨ts₁, -, h⟩ := bind_eq_ok.mp h
    obtain ⟨ts₂, -, h⟩ := bind_eq_ok.mp h
    obtain ⟨ts₃, h₃, h⟩ := bind_eq_ok.mp h
    cases h
    exact (Among.of_eq_ok h₃).right
  | cast t e s => exact .of_eq_ok h
  | item s hi => exact among_ofExprs hi h
  | argument f s hi =>
    rw [ofExpr] at h
    split at h
    · cases h
    · obtain ⟨ts₁, h₁, h⟩ := bind_eq_ok.mp h
      obtain ⟨ts₂, -, h⟩ := bind_eq_ok.mp h
      cases h
      exact (among_ofExprs hi h₁).left

theorem Among.of_reaches {e i : Expr} (hi : e.Reaches i) (h : Among c e ts) : Among c i ts := by
  induction hi with
  | refl => exact h
  | tail _ hi ih =>
    obtain ⟨us, hus, hsub⟩ := ih
    exact (among_of_evaluates hi hus).mono hsub

theorem among_ofDeclarator {d : Declarator} {e : Expr} (he : e ∈ d.exprs)
    (h : ofDeclarator c d = .ok ts) : Among c e ts := by
  rw [ofDeclarator] at h
  split at h
  · cases h
  · obtain ⟨ts₁, h₁, h⟩ := bind_eq_ok.mp h
    obtain ⟨ts₂, -, h⟩ := bind_eq_ok.mp h
    obtain ⟨ts₃, h₃, h⟩ := bind_eq_ok.mp h
    cases h
    obtain he | he := List.mem_append.mp he
    · exact (among_ofExprs he h₁).left.left
    · exact (among_ofExprs he h₃).right

def declared (d : Declarator) : Touch := ⟨d.symbol, true, none, d.storage == .automatic, d.span⟩

theorem declared_mem_ofDeclarator {d : Declarator} (h : ofDeclarator c d = .ok ts) :
    declared d ∈ ts := by
  rw [ofDeclarator] at h
  split at h
  · cases h
  · obtain ⟨ts₁, -, h⟩ := bind_eq_ok.mp h
    obtain ⟨ts₂, h₂, h⟩ := bind_eq_ok.mp h
    obtain ⟨ts₃, -, h⟩ := bind_eq_ok.mp h
    cases h
    obtain rfl := one_eq_ok h₂
    simp [declared]

theorem ofDeclarator_of_mem {d : Declarator} {ds : List Declarator} (hd : d ∈ ds)
    (h : ofDeclarators c ds = .ok ts) : ∃ us, ofDeclarator c d = .ok us ∧ us ⊆ ts := by
  induction ds generalizing ts with
  | nil => cases hd
  | cons d' ds ih =>
    obtain ⟨ts₁, h₁, h⟩ := bind_eq_ok.mp h
    obtain ⟨ts₂, h₂, h⟩ := bind_eq_ok.mp h
    cases h
    obtain rfl | hd := List.mem_cons.mp hd
    · exact ⟨ts₁, h₁, List.subset_append_left _ _⟩
    · obtain ⟨us, hus, hsub⟩ := ih hd h₂
      exact ⟨us, hus, List.subset_append_of_subset_right _ hsub⟩

def Collects (c : Context) (ts : List Touch) : Node → Prop
  | .expr e => Among c e ts
  | .declarator d => declared d ∈ ts

theorem collects_of_reaches {e i : Expr} (hi : e.Reaches i) (h : ofExpr c e = .ok ts) :
    Collects c ts (.expr i) :=
  Among.of_reaches hi (.of_eq_ok h)

theorem collects_ofDeclarators {d : Declarator} {ds : List Declarator} {n : Node} (hd : d ∈ ds)
    (hn : d.Visits n) (h : ofDeclarators c ds = .ok ts) : Collects c ts n := by
  obtain ⟨us, hus, hsub⟩ := ofDeclarator_of_mem hd h
  obtain ⟨e, he, i, hi, rfl⟩ | rfl := hn
  · exact .of_reaches hi ((among_ofDeclarator he hus).mono hsub)
  · exact hsub (declared_mem_ofDeclarator hus)

end Touch

namespace Trail

variable {c : Touch.Context} {nest : List CountedLoop} {t t' : Trail}

theorem walkAll_mem {st : Stmt} {ss : List Stmt} (hst : st ∈ ss)
    (h : walkAll c nest ss t = .ok t') :
    ∃ t₁ t₂, walk c nest st t₁ = .ok t₂ ∧ t₂.groups ⊆ t'.groups := by
  induction ss generalizing t with
  | nil => cases hst
  | cons st' ss ih =>
    obtain ⟨t₁, h₁, h₂⟩ := bind_eq_ok.mp h
    obtain rfl | hst := List.mem_cons.mp hst
    · obtain ⟨gs, hw, -⟩ := walkAll_spec nest ss h₂
      exact ⟨t, t₁, h₁, hw.groups ▸ List.subset_append_left _ _⟩
    · exact ih hst h₂

theorem walkNumbered_getElem? {k j : Nat} {st : Stmt} {ss : List Stmt} (hst : ss[j]? = some st)
    (h : walkNumbered c nest k ss t = .ok t') :
    ∃ t₁ t₂, walk c nest st t₁ = .ok t₂ ∧ t₁.topLevel = k + j ∧ t₂.groups ⊆ t'.groups := by
  induction ss generalizing k j t with
  | nil => cases hst
  | cons st' ss ih =>
    obtain ⟨t₁, h₁, h₂⟩ := bind_eq_ok.mp h
    cases j with
    | zero =>
      cases hst
      obtain ⟨gs, hw, -⟩ := walkNumbered_spec nest (k + 1) ss h₂
      exact ⟨_, t₁, h₁, rfl, hw.groups ▸ List.subset_append_left _ _⟩
    | succ j =>
      obtain ⟨u₁, u₂, hwalk, htop, hsub⟩ := ih hst h₂
      exact ⟨u₁, u₂, hwalk, by omega, hsub⟩

theorem walkNumbered_mem {k : Nat} {st : Stmt} {ss : List Stmt} (hst : st ∈ ss)
    (h : walkNumbered c nest k ss t = .ok t') :
    ∃ t₁ t₂, walk c nest st t₁ = .ok t₂ ∧ t₂.groups ⊆ t'.groups := by
  obtain ⟨j, hj⟩ := List.getElem?_of_mem hst
  obtain ⟨t₁, t₂, hwalk, -, hsub⟩ := walkNumbered_getElem? hj h
  exact ⟨t₁, t₂, hwalk, hsub⟩

/-- What is collected of a part of a tree is in one group, which stands in these loops. -/
def Holds (t : Trail) (c : Touch.Context) (chain : List LoopId) (n : Node) : Prop :=
  ∃ g ∈ t.groups, g.loops = chain ∧ ∃ nest, Touch.Collects (contextIn c nest) g.touches n

theorem Holds.mono {chain : List LoopId} {n : Node} (h : t.Holds c chain n)
    (hsub : t.groups ⊆ t'.groups) : t'.Holds c chain n := by
  obtain ⟨g, hg, hr⟩ := h
  exact ⟨g, hsub hg, hr⟩

theorem holds_add {ts : List Touch} {n : Node} (h : Touch.Collects (contextIn c nest) ts n) :
    (t.add nest ts).Holds c (nest.map (·.id)) n :=
  ⟨⟨nest.map (·.id), t.topLevel, ts⟩, by simp [add], rfl, nest, h⟩

theorem groups_subset_of_walk {st : Stmt} (h : walk c nest st t = .ok t') :
    t.groups ⊆ t'.groups := by
  obtain ⟨gs, hw, -⟩ := walk_spec nest st h
  exact hw.groups ▸ List.subset_append_left _ _

/-- A walk through a statement, or through a block whose statements are numbered. -/
def Walks (c : Touch.Context) (nest : List CountedLoop) (st : Stmt) (t t' : Trail) : Prop :=
  walk c nest st t = .ok t' ∨
    ∃ k ss s, st = .compound ss s ∧ walkNumbered c nest k ss t = .ok t'

theorem walk_forLoop_spec {f : ForHeader} {b : Stmt} {s : Site}
    (h : walk c nest (.forLoop f b s) t = .ok t') :
    ∃ l, CountedLoop.ofHeader? f = some l ∧
      ∃ t₁, Walks c (nest ++ [l]) b t₁ t' ∧ t₁.groups = t.groups := by
  rw [walk] at h
  split at h
  · cases h
  · next l hl =>
    dsimp only at h
    refine ⟨l, hl, ?_⟩
    split at h
    · next hempty =>
      obtain rfl := List.isEmpty_iff.mp hempty
      split at h
      · next ss s' => exact ⟨_, Or.inr ⟨0, ss, s', rfl, h⟩, rfl⟩
      · exact ⟨_, Or.inl h, rfl⟩
    · exact ⟨_, Or.inl h, rfl⟩

theorem walk_forLoop_eq_ok {f : ForHeader} {b : Stmt} {s : Site}
    (h : walk c nest (.forLoop f b s) t = .ok t') :
    ∃ l, CountedLoop.ofHeader? f = some l ∧ ∃ t₁, Walks c (nest ++ [l]) b t₁ t' := by
  obtain ⟨l, hl, t₁, h, -⟩ := walk_forLoop_spec h
  exact ⟨l, hl, t₁, h⟩

theorem Walks.compound {ss : List Stmt} {s : Site} {st : Stmt} (hst : st ∈ ss)
    (h : Walks c nest (.compound ss s) t t') :
    ∃ t₁ t₂, Walks c nest st t₁ t₂ ∧ t₂.groups ⊆ t'.groups := by
  obtain h | ⟨k, ss, s, ⟨⟩, h⟩ := h
  · obtain ⟨t₁, t₂, h₁, hsub⟩ := walkAll_mem hst h
    exact ⟨t₁, t₂, Or.inl h₁, hsub⟩
  · obtain ⟨t₁, t₂, h₁, hsub⟩ := walkNumbered_mem hst h
    exact ⟨t₁, t₂, Or.inl h₁, hsub⟩

/-- All that a statement visits is collected, in its loops. -/
theorem holds_of_visits {st : Stmt} {ids : List LoopId} {p : Use.Site} {n : Node}
    (hv : st.Visits ids p n) (hp : p = .statement) (h : Walks c nest st t t') :
    t'.Holds c (nest.map (·.id) ++ ids) n := by
  induction hv generalizing nest t t' with
  | item s hst _ ih =>
    obtain ⟨t₁, t₂, h₁, hsub⟩ := h.compound hst
    exact (ih hp h₁).mono hsub
  | expr s hv =>
    obtain h | ⟨_, _, _, ⟨⟩, -⟩ := h
    obtain ⟨i, hi, rfl⟩ := hv
    obtain ⟨ts, hts, h⟩ := bind_eq_ok.mp h
    cases h
    rw [List.append_nil]
    exact holds_add (Touch.collects_of_reaches hi (Touch.ofStatementExpr_eq_ok hts))
  | decl s hd hv =>
    obtain h | ⟨_, _, _, ⟨⟩, -⟩ := h
    obtain ⟨ts, hts, h⟩ := bind_eq_ok.mp h
    cases h
    rw [List.append_nil]
    exact holds_add (Touch.collects_ofDeclarators hd hv hts)
  | @test e' n' y z s hv =>
    obtain h | ⟨_, _, _, ⟨⟩, -⟩ := h
    obtain ⟨i, hi, rfl⟩ := hv
    rw [List.append_nil]
    cases z with
    | none =>
      obtain ⟨ts, hts, h⟩ := bind_eq_ok.mp h
      exact (holds_add (Touch.collects_of_reaches hi hts)).mono (groups_subset_of_walk h)
    | some z =>
      obtain ⟨ts, hts, h⟩ := bind_eq_ok.mp h
      obtain ⟨t₁, h₁, h⟩ := bind_eq_ok.mp h
      exact ((holds_add (Touch.collects_of_reaches hi hts)).mono (groups_subset_of_walk h₁)).mono
        (groups_subset_of_walk h)
  | @yes y ids p n' e' z s _ ih =>
    obtain h | ⟨_, _, _, ⟨⟩, -⟩ := h
    cases z with
    | none =>
      obtain ⟨ts, -, h⟩ := bind_eq_ok.mp h
      exact ih hp (Or.inl h)
    | some z =>
      obtain ⟨ts, -, h⟩ := bind_eq_ok.mp h
      obtain ⟨t₁, h₁, h⟩ := bind_eq_ok.mp h
      exact (ih hp (Or.inl h₁)).mono (groups_subset_of_walk h)
  | no e' y s _ ih =>
    obtain h | ⟨_, _, _, ⟨⟩, -⟩ := h
    obtain ⟨ts, -, h⟩ := bind_eq_ok.mp h
    obtain ⟨t₁, -, h⟩ := bind_eq_ok.mp h
    exact ih hp (Or.inl h)
  | clause => cases hp
  | body f s _ ih =>
    obtain h | ⟨_, _, _, ⟨⟩, -⟩ := h
    obtain ⟨l, hl, t₁, h⟩ := walk_forLoop_eq_ok h
    simpa [CountedLoop.id_of_ofHeader? hl] using ih hp h
  | result | whileTest | whileBody | doTest | doBody | switchTest | switchBody | labelled =>
    obtain h | ⟨_, _, _, ⟨⟩, -⟩ := h
    cases h

end Trail

namespace Collector

variable {c : Collector} {stmts : List Stmt} {set : AccessSet} {chain : List LoopId}

theorem exists_accesses_of_visited (h : c.collect stmts = .ok set) {n : Node}
    (hv : Visited stmts chain .statement n) :
    ∃ nest ts, Touch.Collects (Trail.contextIn c.context nest) ts n ∧
      ∀ t ∈ ts, ∃ a ∈ set.accesses, a.toTouch = t ∧ a.loops = chain := by
  obtain ⟨tr, htr, rfl⟩ := collect_eq_ok h
  obtain ⟨st, hst, hv⟩ := hv
  obtain ⟨t₁, t₂, hwalk, hsub⟩ := Trail.walkNumbered_mem hst htr
  obtain ⟨g, hg, hloops, nest, hn⟩ := Trail.holds_of_visits hv rfl (Or.inl hwalk)
  refine ⟨nest, g.touches, hn, fun t ht => ?_⟩
  obtain ⟨a, ha, hat, haloops, -⟩ := Trail.exists_access (hsub hg) ht
  exact ⟨a, ha, hat, haloops.trans hloops⟩

theorem exists_access_of_visited (h : c.collect stmts = .ok set) {e : Expr}
    (hv : Visited stmts chain .statement (.expr e)) :
    ∃ nest ts, Touch.ofExpr (Trail.contextIn c.context nest) e = .ok ts ∧
      ∀ t ∈ ts, ∃ a ∈ set.accesses, a.toTouch = t ∧ a.loops = chain := by
  obtain ⟨nest, ts, ⟨us, hus, hsub⟩, hts⟩ := exists_accesses_of_visited h hv
  exact ⟨nest, us, hus, fun t ht => hts t (hsub ht)⟩

end Collector

end LoopLegality

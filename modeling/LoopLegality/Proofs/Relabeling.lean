import LoopLegality.Proofs.Capture
import LoopLegality.Proofs.Erasure

namespace LoopLegality

variable (r : Symbol → Symbol)

mutual

def Initializer.relabel : Initializer → Initializer
  | .expr e => .expr (e.relabel r)
  | .list items => .list (Initializer.relabelAll items)

def Initializer.relabelAll : List Initializer → List Initializer
  | [] => []
  | i :: is => i.relabel :: Initializer.relabelAll is

end

def Declarator.relabel (d : Declarator) : Declarator :=
  { d with
    symbol := r d.symbol
    dims := d.dims.map (·.map (Expr.relabel r))
    init := d.init.map (Initializer.relabel r) }

def ForInit.relabel : ForInit → ForInit
  | .decl d => .decl { d with declarators := d.declarators.map (Declarator.relabel r) }
  | .expr e s => .expr (e.relabel r) s
  | .null s => .null s

def ForHeader.relabel (h : ForHeader) : ForHeader :=
  { h with
    init := h.init.map (ForInit.relabel r)
    cond := h.cond.map (Expr.relabel r)
    incr := h.incr.map (Expr.relabel r) }

def Declarator.bare (d : Declarator) : Declarator := { d.erase with storage := .automatic }

def ForInit.bare : ForInit → ForInit
  | .decl d => .decl ⟨d.declarators.map Declarator.bare, .none⟩
  | .expr e _ => .expr e.erase .none
  | .null _ => .null .none

/-- What a header says: its three clauses without places in the text and storage classes. -/
def ForHeader.clauses (h : ForHeader) : Option ForInit × Option Expr × Option Expr :=
  (h.init.map ForInit.bare, h.cond.map Expr.erase, h.incr.map Expr.erase)

/-- The map takes different names of `k` to different names, and turns its clauses into those of
`h`. -/
structure ForHeader.RenamesTo (k : ForHeader) (r : Symbol → Symbol) (h : ForHeader) : Prop where
  injOn : Set.InjOn r {x | x ∈ k.mentioned}
  clauses : (k.relabel r).clauses = h.clauses

namespace Alignment

variable {r : Symbol → Symbol} {xs ys us : List Symbol} {a b : Option Alignment}

@[simp] theorem graph_nil : graph r [] = [] := rfl

theorem eq_graph_of_forall {ps : Alignment} (hp : ps.Pairs us ys) (hr : ∀ p ∈ ps, p.1 = r p.2) :
    ps = graph r ys := by
  obtain ⟨-, rfl⟩ := hp
  rw [graph, List.map_map]
  apply (List.map_id ps).symm.trans
  apply List.map_congr_left
  intro p hp
  exact Prod.ext (hr p hp) rfl

theorem append?_eq_graph (ha : ∀ qs, a = some qs → qs.Pairs us xs) :
    append? a b = some (graph r (xs ++ ys)) ↔
      a = some (graph r xs) ∧ b = some (graph r ys) := by
  rw [append?_eq_some, graph_append]
  constructor
  · rintro ⟨qs, rs, hqs, hrs, heq⟩
    have hlen : (graph r xs).length = qs.length := by
      rw [graph, List.length_map, ← (ha qs hqs).2, List.length_map]
    obtain ⟨rfl, rfl⟩ := List.append_inj heq hlen
    exact ⟨hqs, hrs⟩
  · rintro ⟨rfl, rfl⟩
    exact ⟨_, _, rfl, rfl, rfl⟩

section Lift

variable {α β : Type} {f : α → α → Option Alignment} {g : α → List Symbol} {relabel : α → α}
  {bare : α → β} (hf : ∀ x y, f x y = some (graph r (g y)) ↔ bare x = bare (relabel y))

include hf

theorem optional?_eq_graph (x y : Option α) :
    optional? f x y = some (graph r ((y.map g).getD [])) ↔
      x.map bare = (y.map relabel).map bare := by
  cases x <;> cases y <;> simp [optional?, hf]

theorem list?_eq_graph (hp : ∀ x y qs, f x y = some qs → qs.Pairs (g x) (g y)) :
    ∀ as bs : List α, list? f as bs = some (graph r (bs.flatMap g)) ↔
      as.map bare = (bs.map relabel).map bare
  | [], [] | [], _ :: _ | _ :: _, [] => by simp [list?]
  | a :: as, b :: bs => by
    simp [list?, append?_eq_graph (hp a b), hf, list?_eq_graph hp as bs]

end Lift

end Alignment

open LoopLegality.Alignment

mutual

/-- Of two expressions of one shape, the first is the second relabelled, but for places in the
text. -/
theorem Expr.Aligned.erase_eq : ∀ {e d : Expr} {ps : Alignment} {ss : List (Span × Span)},
    e.Aligned d ps ss → ps.Joins r → e.erase = (d.relabel r).erase
  | _, _, _, _, .int .., _ | _, _, _, _, .float .., _ | _, _, _, _, .char .., _
  | _, _, _, _, .str .., _ | _, _, _, _, .sizeOfType .., _ => rfl
  | _, _, _, _, .ident x y s t, hj => by
    have hx : x = r y := hj _ List.mem_cons_self
    simp [relabel, hx]
  | _, _, _, _, .field x y a s t ho, hj => by
    obtain ⟨hx, hj⟩ := List.forall_mem_cons.mp hj
    have hx : x = r y := hx
    simp [relabel, hx, ho.erase_eq hj]
  | _, _, _, _, .unary _ _ _ ha, hj | _, _, _, _, .cast _ _ _ ha, hj
  | _, _, _, _, .sizeOf _ _ ha, hj => by
    simp [relabel, ha.erase_eq hj]
  | _, _, _, _, .subscript _ _ ha hb, hj | _, _, _, _, .binary _ _ _ ha hb, hj
  | _, _, _, _, .assign _ _ _ ha hb, hj => by
    obtain ⟨hja, hjb⟩ := joins_append.mp hj
    simp [relabel, ha.erase_eq hja, hb.erase_eq hjb]
  | _, _, _, _, .conditional _ _ ha hb hc, hj => by
    obtain ⟨hja, hj⟩ := joins_append.mp hj
    obtain ⟨hjb, hjc⟩ := joins_append.mp hj
    simp [relabel, ha.erase_eq hja, hb.erase_eq hjb, hc.erase_eq hjc]
  | _, _, _, _, .call _ _ hf has, hj => by
    obtain ⟨hjf, hjas⟩ := joins_append.mp hj
    simp [relabel, hf.erase_eq hjf, has.eraseAll_eq hjas]
  | _, _, _, _, .comma _ _ has, hj => by
    simp [relabel, has.eraseAll_eq hj]

theorem Expr.AlignedAll.eraseAll_eq : ∀ {as bs : List Expr} {ps : Alignment}
    {ss : List (Span × Span)}, AlignedAll as bs ps ss → ps.Joins r →
    eraseAll as = eraseAll (relabelAll r bs)
  | _, _, _, _, .nil, _ => rfl
  | _, _, _, _, .cons ha has, hj => by
    obtain ⟨hja, hjas⟩ := joins_append.mp hj
    simp [relabelAll, ha.erase_eq hja, has.eraseAll_eq hjas]

end

theorem Expr.align?_eq_graph (a b : Expr) :
    a.align? b = some (graph r b.mentioned) ↔ a.erase = (b.relabel r).erase := by
  constructor
  · intro h
    obtain ⟨ss, h⟩ := aligned_of_align? a b h
    exact h.erase_eq r (joins_graph r _)
  · intro h
    rw [← align?_erase, h, align?_erase, align?_relabel]

mutual

theorem Initializer.align?_eq_graph : ∀ i j : Initializer,
    i.align? j = some (graph r j.mentioned) ↔ i.erase = (j.relabel r).erase
  | .expr a, .expr b => by
    simpa [align?, relabel, mentioned, exprs] using Expr.align?_eq_graph r a b
  | .list is, .list js => by
    simpa [align?, relabel, mentioned, exprs] using Initializer.alignAll?_eq_graph is js
  | .expr _, .list _ | .list _, .expr _ => by simp [align?, relabel]

theorem Initializer.alignAll?_eq_graph : ∀ is js : List Initializer,
    Initializer.alignAll? is js = some (graph r ((exprsOf js).flatMap Expr.mentioned)) ↔
      eraseAll is = eraseAll (relabelAll r js)
  | [], [] | [], _ :: _ | _ :: _, [] => by simp [alignAll?, relabelAll, exprsOf]
  | i :: is, j :: js => by
    have happ : append? (i.align? j) (Initializer.alignAll? is js) =
          some (graph r (j.mentioned ++ (exprsOf js).flatMap Expr.mentioned)) ↔ _ :=
      append?_eq_graph (Initializer.pairs_of_align? i j)
    rw [align?_eq_graph i j, alignAll?_eq_graph is js] at happ
    simpa [alignAll?, exprsOf, relabelAll, mentioned] using happ

end

theorem Declarator.align?_eq_graph (d e : Declarator) :
    d.align? e = some (graph r e.mentioned) ↔ d.bare = (e.relabel r).bare := by
  have hsym (qs : Alignment) (hqs : some [(d.symbol, e.symbol)] = some qs) :
      qs.Pairs [d.symbol] [e.symbol] := by
    cases hqs
    exact ⟨rfl, rfl⟩
  have hdims (qs : Alignment) (hqs : list? (optional? Expr.align?) d.dims e.dims = some qs) :=
    pairs_of_list? (f := optional? Expr.align?)
      (fun _ _ _ => pairs_of_optional? Expr.pairs_of_align?) hqs
  rw [align?, when_eq_some, mentioned_eq, append?_eq_graph hsym, append?_eq_graph hdims,
    list?_eq_graph (optional?_eq_graph (Expr.align?_eq_graph r))
      (fun _ _ _ => pairs_of_optional? Expr.pairs_of_align?),
    optional?_eq_graph (Initializer.align?_eq_graph r)]
  simp [bare, relabel, erase, graph, and_left_comm]

theorem ForInit.align?_eq_graph (i j : ForInit) :
    i.align? j = some (graph r (j.nodes.flatMap Node.mentions)) ↔
      i.bare = (j.relabel r).bare := by
  cases i with
  | expr a s =>
    cases j with
    | expr b t =>
      simp [align?, nodes, relabel, bare, Expr.flatMap_occurrences, Expr.align?_eq_graph]
    | decl | null => simp [align?, relabel, bare]
  | decl d =>
    cases j with
    | expr | null => simp [align?, relabel, bare]
    | decl e =>
      simp only [align?, nodes, Declaration.nodes, List.flatMap_assoc]
      exact (list?_eq_graph (Declarator.align?_eq_graph r) Declarator.pairs_of_align? _ _).trans
        (by simp [relabel, bare])
  | null s => cases j <;> simp [align?, nodes, relabel, bare, graph]

namespace ForHeader

theorem mentioned_eq (h : ForHeader) : h.mentioned =
    (h.init.map fun i => i.nodes.flatMap Node.mentions).getD [] ++
      ((h.cond.map Expr.mentioned).getD [] ++ (h.incr.map Expr.mentioned).getD []) := by
  obtain ⟨id, init, cond, incr⟩ := h
  simp only [mentioned, nodes, List.flatMap_append, optionNodes_mentions, List.append_assoc]
  cases init <;> rfl

/-- Two headers align along a map of names exactly if it turns the clauses of the second into those
of the first. -/
theorem align?_eq_graph (h k : ForHeader) :
    h.align? k = some (graph r k.mentioned) ↔ (k.relabel r).clauses = h.clauses := by
  have hinit (qs : Alignment) (hqs : optional? ForInit.align? h.init k.init = some qs) :=
    pairs_of_optional? ForInit.pairs_of_align? hqs
  have hcond (qs : Alignment) (hqs : optional? Expr.align? h.cond k.cond = some qs) :=
    pairs_of_optional? Expr.pairs_of_align? hqs
  rw [align?, mentioned_eq, append?_eq_graph hinit, append?_eq_graph hcond,
    optional?_eq_graph (ForInit.align?_eq_graph r), optional?_eq_graph (Expr.align?_eq_graph r),
    optional?_eq_graph (Expr.align?_eq_graph r), eq_comm (a := clauses _)]
  simp [clauses, relabel]

end ForHeader

namespace Alignment

variable {r}

theorem exists_renaming?_graph {ys zs : List Symbol} {m : IndexMap Symbol}
    (hinj : Set.InjOn r {x | x ∈ zs}) (hm : ∀ y x, m.get? y = some x → y ∈ zs ∧ x = r y)
    (hys : ys ⊆ zs) : ∃ m', renaming? (graph r ys) m = some m' := by
  induction ys generalizing m with
  | nil => exact ⟨m, rfl⟩
  | cons y ys ih =>
    obtain ⟨hy, hys⟩ := List.cons_subset.mp hys
    change ∃ m', renaming? ((r y, y) :: graph r ys) m = some m'
    rw [renaming?]
    cases hget : m.get? y with
    | some x =>
      simp only [(hm y x hget).2, if_true]
      exact ih hm hys
    | none =>
      have hfresh : r y ∉ m.values := by
        intro hmem
        obtain ⟨e, he, heq⟩ := List.mem_map.mp hmem
        have hez := IndexMap.get?_of_mem_entries he
        obtain ⟨hz, hrz⟩ := hm e.1 e.2 hez
        rw [hinj hy hz (heq.symm.trans hrz), hez] at hget
        cases hget
      simp only [List.contains_eq_mem, hfresh, decide_false, Bool.false_eq_true, if_false]
      refine ih (fun z x hz => ?_) hys
      rw [IndexMap.get?_insert] at hz
      split at hz
      · next hyz =>
        cases hz
        exact hyz ▸ ⟨hy, rfl⟩
      · exact hm z x hz

theorem get?_of_renaming?_graph {ys : List Symbol} {m : IndexMap Symbol}
    (h : renaming? (graph r ys) .empty = some m) (x : Symbol) :
    m.get? x = if x ∈ ys then some (r x) else none := by
  obtain ⟨hps, -, -⟩ := renaming?_eq_some h (by intro y z x hy; cases hy)
  split
  · next hx => exact hps (r x, x) (List.mem_map_of_mem (f := fun y => (r y, y)) hx)
  · next hx =>
    rw [Option.eq_none_iff_forall_ne_some]
    intro z hz
    obtain hempty | hmem := mem_of_renaming? h hz
    · cases hempty
    · obtain ⟨y, hy, heq⟩ := List.mem_map.mp hmem
      cases heq
      exact hx hy

end Alignment

namespace ForHeader

variable {r} {h k : ForHeader}

theorem RenamesTo.unify? (hr : k.RenamesTo r h) :
    ∃ m, h.unify? k = some m ∧ ∀ x, m.get? x = if x ∈ k.mentioned then some (r x) else none := by
  have halign := (align?_eq_graph r h k).mpr hr.clauses
  obtain ⟨m, hm⟩ := exists_renaming?_graph (m := .empty) hr.injOn nofun (List.Subset.refl _)
  refine ⟨m, ?_, get?_of_renaming?_graph hm⟩
  rw [ForHeader.unify?, halign]
  exact hm

theorem renamesTo_of_unify? {m : IndexMap Symbol} (hm : h.unify? k = some m) :
    k.RenamesTo (fun y => (m.get? y).getD y) h := by
  obtain ⟨ps, halign, hnames⟩ := Option.bind_eq_some_iff.mp hm
  have hpairs := pairs_of_align? halign
  obtain ⟨hps, -, hone⟩ := renaming?_eq_some hnames (by intro y z x hy; cases hy)
  have hr (p : Symbol × Symbol) (hp : p ∈ ps) : p.1 = (m.get? p.2).getD p.2 := by
    rw [hps p hp, Option.getD_some]
  have hget (y : Symbol) (hy : y ∈ k.mentioned) : m.get? y = some ((m.get? y).getD y) := by
    obtain ⟨p, hp, rfl⟩ := List.mem_map.mp (hpairs.2 ▸ hy)
    rw [hps p hp, Option.getD_some]
  refine ⟨fun y hy z hz heq => ?_, (align?_eq_graph _ h k).mp ?_⟩
  · exact hone y z _ (hget y hy) ((hget z hz).trans (congrArg some heq.symm))
  · rw [halign, ← eq_graph_of_forall hpairs hr]

/-- Two headers unify exactly if some map that keeps the names of the second apart turns its clauses
into those of the first. The result is that map on the names of the second header, and has no
other names. -/
theorem unify?_isSome_iff_renamesTo (h k : ForHeader) :
    ((∃ m, h.unify? k = some m) ↔ ∃ r, k.RenamesTo r h) ∧
      ∀ r m, k.RenamesTo r h → h.unify? k = some m →
        ∀ x, m.get? x = if x ∈ k.mentioned then some (r x) else none := by
  refine ⟨⟨fun ⟨m, hm⟩ => ⟨_, renamesTo_of_unify? hm⟩, fun ⟨r, hr⟩ => ?_⟩, fun r m hr hm => ?_⟩
  · obtain ⟨m, hm, -⟩ := hr.unify?
    exact ⟨m, hm⟩
  · obtain ⟨m', hm', hget⟩ := hr.unify?
    obtain rfl : m' = m := Option.some.inj (hm'.symm.trans hm)
    exact hget

end ForHeader

namespace MemberBound

/-- `for (i = 0; i < s.n; i++)`, with the names given. -/
def header (id : LoopId) (i s n : Symbol) : ForHeader where
  id := id
  init := some (.expr (.assign .plain (.ident i .none) (.int 0 .none) .none) .none)
  cond := some (.binary .lt (.ident i .none) (.field (.ident s .none) n false .none) .none)
  incr := some (.unary .postIncr (.ident i .none) .none)

theorem renamesTo : (header 1 3 4 5).RenamesTo (· - 3) (header 0 0 1 2) where
  injOn := by
    have hinj : ∀ x ∈ (header 1 3 4 5).mentioned, ∀ y ∈ (header 1 3 4 5).mentioned,
        x - 3 = y - 3 → x = y := by decide
    exact fun x hx y hy => hinj x hx y hy
  clauses := rfl

end MemberBound

open MemberBound in
/-- The bound of the second header is another member of another variable. -/
theorem ForHeader.unify?_memberBound :
    (header 1 3 4 5).RenamesTo (· - 3) (header 0 0 1 2) ∧
      ∃ m, (header 0 0 1 2).unify? (header 1 3 4 5) = some m ∧
        ∀ x, m.get? x = if x ∈ (header 1 3 4 5).mentioned then some (x - 3) else none := by
  obtain ⟨hiff, hget⟩ := unify?_isSome_iff_renamesTo (header 0 0 1 2) (header 1 3 4 5)
  obtain ⟨m, hm⟩ := hiff.mpr ⟨_, renamesTo⟩
  exact ⟨renamesTo, m, hm, hget _ m renamesTo hm⟩

end LoopLegality

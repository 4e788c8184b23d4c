import LoopLegality.Alignment
import LoopLegality.Effect

namespace LoopLegality

/-- Every binding that the expression mentions, members and callees included. -/
def Expr.mentioned (e : Expr) : List Symbol := e.nodes.flatMap Expr.mentions

def ForHeader.mentioned (h : ForHeader) : List Symbol := h.nodes.flatMap Node.mentions

namespace Expr

@[simp] theorem mentioned_ident (x : Symbol) (s : Span) : (ident x s).mentioned = [x] := rfl

@[simp] theorem mentioned_field (o : Expr) (m : Symbol) (a : Bool) (s : Span) :
    (field o m a s).mentioned = m :: o.mentioned := rfl

@[simp] theorem mentioned_subscript (b i : Expr) (s : Span) :
    (subscript b i s).mentioned = b.mentioned ++ i.mentioned := List.flatMap_append

def mentionedIn (es : List Expr) : List Symbol := (nodesOf es).flatMap mentions

@[simp] theorem mentionedIn_cons (e : Expr) (es : List Expr) :
    mentionedIn (e :: es) = e.mentioned ++ mentionedIn es := List.flatMap_append

@[simp] theorem mentioned_call (f : Expr) (as : List Expr) (s : Span) :
    (call f as s).mentioned = f.mentioned ++ mentionedIn as := List.flatMap_append

@[simp] theorem mentioned_unary (op : UnaryOp) (e : Expr) (s : Span) :
    (unary op e s).mentioned = e.mentioned := rfl

@[simp] theorem mentioned_binary (op : BinaryOp) (l r : Expr) (s : Span) :
    (binary op l r s).mentioned = l.mentioned ++ r.mentioned := List.flatMap_append

@[simp] theorem mentioned_assign (op : AssignOp) (l r : Expr) (s : Span) :
    (assign op l r s).mentioned = l.mentioned ++ r.mentioned := List.flatMap_append

@[simp] theorem mentioned_conditional (c t f : Expr) (s : Span) :
    (conditional c t f s).mentioned = c.mentioned ++ (t.mentioned ++ f.mentioned) := by
  simp [mentioned, nodes, mentions]

@[simp] theorem mentioned_cast (t : String) (e : Expr) (s : Span) :
    (cast t e s).mentioned = e.mentioned := rfl

@[simp] theorem mentioned_sizeOf (e : Expr) (s : Span) : (sizeOf e s).mentioned = e.mentioned := rfl

@[simp] theorem mentioned_comma (es : List Expr) (s : Span) :
    (comma es s).mentioned = mentionedIn es := rfl

/-- The place of a node that asks for the size of a type. -/
def typeSize : Expr → List Span
  | sizeOfType s => [s]
  | _ => []

def typeSizes (e : Expr) : List Span := e.nodes.flatMap typeSize

end Expr

def Node.typeSize : Node → List Span
  | declarator _ => []
  | expr e => e.typeSize

def ForHeader.typeSizes (h : ForHeader) : List Span := h.nodes.flatMap Node.typeSize

namespace Alignment

variable {ps qs : Alignment} {a b : Option Alignment} {xs ys us vs : List Symbol}

theorem when_eq_some {p : Bool} : Alignment.when p a = some ps ↔ p = true ∧ a = some ps := by
  cases p <;> simp [Alignment.when]

theorem append?_eq_some :
    append? a b = some ps ↔ ∃ qs rs, a = some qs ∧ b = some rs ∧ ps = qs ++ rs := by
  cases a <;> cases b <;> simp [append?, eq_comm]

def Joins (r : Symbol → Symbol) (ps : Alignment) : Prop := ∀ p ∈ ps, p.1 = r p.2

theorem joins_append {r : Symbol → Symbol} :
    Joins r (ps ++ qs) ↔ Joins r ps ∧ Joins r qs :=
  List.forall_mem_append

def Pairs (ps : Alignment) (xs ys : List Symbol) : Prop :=
  ps.map Prod.fst = xs ∧ ps.map Prod.snd = ys

theorem pairs_nil : Pairs [] [] [] := ⟨rfl, rfl⟩

theorem optional?_eq_some {α : Type} {f : α → α → Option Alignment} {a b : Option α}
    {ps : Alignment} (h : optional? f a b = some ps) :
    a = none ∧ b = none ∨ ∃ x y, a = some x ∧ b = some y ∧ f x y = some ps := by
  cases a <;> cases b
  · exact Or.inl ⟨rfl, rfl⟩
  · cases h
  · cases h
  · exact Or.inr ⟨_, _, rfl, rfl, h⟩

theorem pairs_of_append? (h : append? a b = some ps) (ha : ∀ qs, a = some qs → qs.Pairs xs ys)
    (hb : ∀ rs, b = some rs → rs.Pairs us vs) : ps.Pairs (xs ++ us) (ys ++ vs) := by
  obtain ⟨qs, rs, hqs, hrs, rfl⟩ := append?_eq_some.mp h
  obtain ⟨rfl, rfl⟩ := ha qs hqs
  obtain ⟨rfl, rfl⟩ := hb rs hrs
  exact ⟨List.map_append, List.map_append⟩

theorem pairs_of_optional? {α : Type} {f : α → α → Option Alignment} {g : α → List Symbol}
    (hf : ∀ x y qs, f x y = some qs → qs.Pairs (g x) (g y)) {x y : Option α}
    (h : optional? f x y = some ps) : ps.Pairs ((x.map g).getD []) ((y.map g).getD []) := by
  obtain ⟨rfl, rfl⟩ | ⟨x, y, rfl, rfl, h⟩ := optional?_eq_some h
  · cases h
    exact pairs_nil
  · exact hf x y ps h

theorem pairs_of_list? {α : Type} {f : α → α → Option Alignment} {g : α → List Symbol}
    (hf : ∀ x y qs, f x y = some qs → qs.Pairs (g x) (g y)) :
    ∀ {as bs : List α} {ps : Alignment}, list? f as bs = some ps →
      ps.Pairs (as.flatMap g) (bs.flatMap g)
  | [], [], _, h => by
    cases h
    exact pairs_nil
  | a :: as, b :: bs, ps, h => by
    rw [List.flatMap_cons, List.flatMap_cons]
    exact pairs_of_append? h (hf a b) fun _ => pairs_of_list? hf
  | [], _ :: _, _, h | _ :: _, [], _, h => by cases h

def graph (r : Symbol → Symbol) (ys : List Symbol) : Alignment := ys.map fun y => (r y, y)

theorem graph_append (r : Symbol → Symbol) (xs ys : List Symbol) :
    graph r (xs ++ ys) = graph r xs ++ graph r ys := List.map_append

theorem joins_graph (r : Symbol → Symbol) (ys : List Symbol) : (graph r ys).Joins r := by
  simp [Joins, graph]

end Alignment

mutual

/-- Two expressions that differ in spans and names alone. The names are paired in the order written,
and so are the places that ask for the size of a type. -/
inductive Expr.Aligned : Expr → Expr → Alignment → List (Span × Span) → Prop
  | int (n s t) : Aligned (.int n s) (.int n t) [] []
  | float (b s t) : Aligned (.float b s) (.float b t) [] []
  | char (c s t) : Aligned (.char c s) (.char c t) [] []
  | str (c s t) : Aligned (.str c s) (.str c t) [] []
  | ident (x y s t) : Aligned (.ident x s) (.ident y t) [(x, y)] []
  | field {o p ps ss} (x y a s t) (ho : Aligned o p ps ss) :
      Aligned (.field o x a s) (.field p y a t) ([(x, y)] ++ ps) ss
  | subscript {b c i j ps qs ss us} (s t) (hb : Aligned b c ps ss) (hi : Aligned i j qs us) :
      Aligned (.subscript b i s) (.subscript c j t) (ps ++ qs) (ss ++ us)
  | call {f g as bs ps qs ss us} (s t) (hf : Aligned f g ps ss) (has : AlignedAll as bs qs us) :
      Aligned (.call f as s) (.call g bs t) (ps ++ qs) (ss ++ us)
  | unary {a b ps ss} (op s t) (ha : Aligned a b ps ss) :
      Aligned (.unary op a s) (.unary op b t) ps ss
  | binary {a b c d ps qs ss us} (op s t) (ha : Aligned a b ps ss) (hc : Aligned c d qs us) :
      Aligned (.binary op a c s) (.binary op b d t) (ps ++ qs) (ss ++ us)
  | assign {a b c d ps qs ss us} (op s t) (ha : Aligned a b ps ss) (hc : Aligned c d qs us) :
      Aligned (.assign op a c s) (.assign op b d t) (ps ++ qs) (ss ++ us)
  | conditional {a b c d e f ps qs rs ss us vs} (s t) (ha : Aligned a b ps ss)
      (hc : Aligned c d qs us) (he : Aligned e f rs vs) :
      Aligned (.conditional a c e s) (.conditional b d f t) (ps ++ (qs ++ rs)) (ss ++ (us ++ vs))
  | cast {a b ps ss} (u s t) (ha : Aligned a b ps ss) :
      Aligned (.cast u a s) (.cast u b t) ps ss
  | sizeOfType (s t) : Aligned (.sizeOfType s) (.sizeOfType t) [] [(s, t)]
  | sizeOf {a b ps ss} (s t) (ha : Aligned a b ps ss) : Aligned (.sizeOf a s) (.sizeOf b t) ps ss
  | comma {as bs ps ss} (s t) (has : AlignedAll as bs ps ss) :
      Aligned (.comma as s) (.comma bs t) ps ss

inductive Expr.AlignedAll : List Expr → List Expr → Alignment → List (Span × Span) → Prop
  | nil : AlignedAll [] [] [] []
  | cons {a b as bs ps qs ss us} (ha : Aligned a b ps ss) (has : AlignedAll as bs qs us) :
      AlignedAll (a :: as) (b :: bs) (ps ++ qs) (ss ++ us)

end

namespace Expr

open LoopLegality.Alignment

mutual

theorem aligned_of_align? : ∀ (e d : Expr) {ps : Alignment}, e.align? d = some ps →
    ∃ ss, e.Aligned d ps ss
  | .int a s, d, ps, h => by
    cases d with
    | int b t =>
      obtain ⟨hab, ⟨⟩⟩ := when_eq_some.mp h
      obtain rfl := eq_of_beq hab
      exact ⟨_, .int a s t⟩
    | _ => cases h
  | .float a s, d, ps, h => by
    cases d with
    | float b t =>
      obtain ⟨hab, ⟨⟩⟩ := when_eq_some.mp h
      obtain rfl := eq_of_beq hab
      exact ⟨_, .float a s t⟩
    | _ => cases h
  | .char a s, d, ps, h => by
    cases d with
    | char b t =>
      obtain ⟨hab, ⟨⟩⟩ := when_eq_some.mp h
      obtain rfl := eq_of_beq hab
      exact ⟨_, .char a s t⟩
    | _ => cases h
  | .str a s, d, ps, h => by
    cases d with
    | str b t =>
      obtain ⟨hab, ⟨⟩⟩ := when_eq_some.mp h
      obtain rfl := eq_of_beq hab
      exact ⟨_, .str a s t⟩
    | _ => cases h
  | .ident x s, d, ps, h => by
    cases d with
    | ident y t =>
      cases h
      exact ⟨_, .ident x y s t⟩
    | _ => cases h
  | .field o x a s, d, ps, h => by
    cases d with
    | field p y b t =>
      obtain ⟨hab, happ⟩ := when_eq_some.mp h
      obtain rfl := eq_of_beq hab
      obtain ⟨qs, rs, ⟨⟩, hrs, rfl⟩ := append?_eq_some.mp happ
      obtain ⟨ss, ho⟩ := aligned_of_align? o p hrs
      exact ⟨_, .field x y a s t ho⟩
    | _ => cases h
  | .subscript a i s, d, ps, h => by
    cases d with
    | subscript b j t =>
      obtain ⟨qs, rs, hqs, hrs, rfl⟩ := append?_eq_some.mp h
      obtain ⟨ss, ha⟩ := aligned_of_align? a b hqs
      obtain ⟨us, hi⟩ := aligned_of_align? i j hrs
      exact ⟨_, .subscript s t ha hi⟩
    | _ => cases h
  | .call f as s, d, ps, h => by
    cases d with
    | call g bs t =>
      obtain ⟨qs, rs, hqs, hrs, rfl⟩ := append?_eq_some.mp h
      obtain ⟨ss, hf⟩ := aligned_of_align? f g hqs
      obtain ⟨us, has⟩ := alignedAll_of_alignAll? as bs hrs
      exact ⟨_, .call s t hf has⟩
    | _ => cases h
  | .unary p a s, d, ps, h => by
    cases d with
    | unary q b t =>
      obtain ⟨hpq, hab⟩ := when_eq_some.mp h
      obtain ⟨ss, ha⟩ := aligned_of_align? a b hab
      obtain rfl := eq_of_beq hpq
      exact ⟨_, .unary p s t ha⟩
    | _ => cases h
  | .binary p a c s, d, ps, h => by
    cases d with
    | binary q b d t =>
      obtain ⟨hpq, happ⟩ := when_eq_some.mp h
      obtain ⟨qs, rs, hqs, hrs, rfl⟩ := append?_eq_some.mp happ
      obtain ⟨ss, ha⟩ := aligned_of_align? a b hqs
      obtain ⟨us, hc⟩ := aligned_of_align? c d hrs
      obtain rfl := eq_of_beq hpq
      exact ⟨_, .binary p s t ha hc⟩
    | _ => cases h
  | .assign p a c s, d, ps, h => by
    cases d with
    | assign q b d t =>
      obtain ⟨hpq, happ⟩ := when_eq_some.mp h
      obtain ⟨qs, rs, hqs, hrs, rfl⟩ := append?_eq_some.mp happ
      obtain ⟨ss, ha⟩ := aligned_of_align? a b hqs
      obtain ⟨us, hc⟩ := aligned_of_align? c d hrs
      obtain rfl := eq_of_beq hpq
      exact ⟨_, .assign p s t ha hc⟩
    | _ => cases h
  | .conditional a c e s, d, ps, h => by
    cases d with
    | conditional b d f t =>
      obtain ⟨qs, _, hqs, happ, rfl⟩ := append?_eq_some.mp h
      obtain ⟨rs, ts, hrs, hts, rfl⟩ := append?_eq_some.mp happ
      obtain ⟨ss, ha⟩ := aligned_of_align? a b hqs
      obtain ⟨us, hc⟩ := aligned_of_align? c d hrs
      obtain ⟨vs, he⟩ := aligned_of_align? e f hts
      exact ⟨_, .conditional s t ha hc he⟩
    | _ => cases h
  | .cast u a s, d, ps, h => by
    cases d with
    | cast v b t =>
      obtain ⟨huv, hab⟩ := when_eq_some.mp h
      obtain ⟨ss, ha⟩ := aligned_of_align? a b hab
      obtain rfl := eq_of_beq huv
      exact ⟨_, .cast u s t ha⟩
    | _ => cases h
  | .sizeOfType s, d, ps, h => by
    cases d with
    | sizeOfType t =>
      cases h
      exact ⟨_, .sizeOfType s t⟩
    | _ => cases h
  | .sizeOf a s, d, ps, h => by
    cases d with
    | sizeOf b t =>
      obtain ⟨ss, ha⟩ := aligned_of_align? a b h
      exact ⟨_, .sizeOf s t ha⟩
    | _ => cases h
  | .comma as s, d, ps, h => by
    cases d with
    | comma bs t =>
      obtain ⟨ss, has⟩ := alignedAll_of_alignAll? as bs h
      exact ⟨_, .comma s t has⟩
    | _ => cases h

theorem alignedAll_of_alignAll? : ∀ (as bs : List Expr) {ps : Alignment},
    alignAll? as bs = some ps → ∃ ss, AlignedAll as bs ps ss
  | [], bs, ps, h => by
    cases bs with
    | nil =>
      cases h
      exact ⟨_, .nil⟩
    | cons => cases h
  | a :: as, bs, ps, h => by
    cases bs with
    | nil => cases h
    | cons b bs =>
      obtain ⟨qs, rs, hqs, hrs, rfl⟩ := append?_eq_some.mp h
      obtain ⟨ss, ha⟩ := aligned_of_align? a b hqs
      obtain ⟨us, has⟩ := alignedAll_of_alignAll? as bs hrs
      exact ⟨_, .cons ha has⟩

end

variable {e d : Expr} {ps : Alignment} {ss : List (Span × Span)}

mutual

theorem Aligned.pairs : ∀ {e d : Expr} {ps : Alignment} {ss : List (Span × Span)},
    e.Aligned d ps ss → ps.Pairs e.mentioned d.mentioned
  | _, _, _, _, .int .. | _, _, _, _, .float .. | _, _, _, _, .char .. | _, _, _, _, .str ..
  | _, _, _, _, .sizeOfType .. | _, _, _, _, .ident .. => ⟨rfl, rfl⟩
  | _, _, _, _, .unary _ _ _ ha | _, _, _, _, .cast _ _ _ ha | _, _, _, _, .sizeOf _ _ ha =>
    ha.pairs
  | _, _, _, _, .comma _ _ has => has.pairs
  | _, _, _, _, .field _ _ _ _ _ ho => by simp [Pairs, ho.pairs.1, ho.pairs.2]
  | _, _, _, _, .call _ _ hf has => by
    simp [Pairs, hf.pairs.1, hf.pairs.2, has.pairs.1, has.pairs.2]
  | _, _, _, _, .subscript _ _ ha hc | _, _, _, _, .binary _ _ _ ha hc
  | _, _, _, _, .assign _ _ _ ha hc => by
    simp [Pairs, ha.pairs.1, ha.pairs.2, hc.pairs.1, hc.pairs.2]
  | _, _, _, _, .conditional _ _ ha hc he => by
    simp [Pairs, ha.pairs.1, ha.pairs.2, hc.pairs.1, hc.pairs.2, he.pairs.1, he.pairs.2]

theorem AlignedAll.pairs : ∀ {as bs : List Expr} {ps : Alignment} {ss : List (Span × Span)},
    AlignedAll as bs ps ss → ps.Pairs (mentionedIn as) (mentionedIn bs)
  | _, _, _, _, .nil => ⟨rfl, rfl⟩
  | _, _, _, _, .cons ha has => by
    simp [Pairs, ha.pairs.1, ha.pairs.2, has.pairs.1, has.pairs.2]

end

mutual

theorem Aligned.typeSizes_eq : ∀ {e d : Expr} {ps : Alignment} {ss : List (Span × Span)},
    e.Aligned d ps ss →
      e.nodes.flatMap typeSize = ss.map Prod.fst ∧ d.nodes.flatMap typeSize = ss.map Prod.snd
  | _, _, _, _, .int .. | _, _, _, _, .float .. | _, _, _, _, .char .. | _, _, _, _, .str ..
  | _, _, _, _, .sizeOfType .. | _, _, _, _, .ident .. => ⟨rfl, rfl⟩
  | _, _, _, _, .field _ _ _ _ _ ha | _, _, _, _, .unary _ _ _ ha | _, _, _, _, .cast _ _ _ ha
  | _, _, _, _, .sizeOf _ _ ha => ha.typeSizes_eq
  | _, _, _, _, .comma _ _ has => has.typeSizes_eq
  | _, _, _, _, .call _ _ hf has => by
    simp [nodes, typeSize, hf.typeSizes_eq, has.typeSizes_eq]
  | _, _, _, _, .subscript _ _ ha hc | _, _, _, _, .binary _ _ _ ha hc
  | _, _, _, _, .assign _ _ _ ha hc => by
    simp [nodes, typeSize, ha.typeSizes_eq, hc.typeSizes_eq]
  | _, _, _, _, .conditional _ _ ha hc he => by
    simp [nodes, typeSize, ha.typeSizes_eq, hc.typeSizes_eq, he.typeSizes_eq]

theorem AlignedAll.typeSizes_eq : ∀ {as bs : List Expr} {ps : Alignment} {ss : List (Span × Span)},
    AlignedAll as bs ps ss → (nodesOf as).flatMap typeSize = ss.map Prod.fst ∧
      (nodesOf bs).flatMap typeSize = ss.map Prod.snd
  | _, _, _, _, .nil => ⟨rfl, rfl⟩
  | _, _, _, _, .cons ha has => by simp [nodesOf, ha.typeSizes_eq, has.typeSizes_eq]

end

theorem Aligned.zip_typeSizes (h : e.Aligned d ps ss) : e.typeSizes.zip d.typeSizes = ss := by
  obtain ⟨he, hd⟩ := h.typeSizes_eq
  rw [typeSizes, typeSizes, he, hd, List.zip_map', List.map_id']

theorem pairs_of_align? (e d : Expr) (ps : Alignment) (h : e.align? d = some ps) :
    ps.Pairs e.mentioned d.mentioned := by
  obtain ⟨ss, h⟩ := aligned_of_align? e d h
  exact h.pairs

section Relabel

variable (r : Symbol → Symbol)

mutual

/-- The expression with all its names replaced, those of members included. -/
def relabel : Expr → Expr
  | .int n s => .int n s
  | .float b s => .float b s
  | .char t s => .char t s
  | .str t s => .str t s
  | .ident x s => .ident (r x) s
  | .field o m a s => .field o.relabel (r m) a s
  | .subscript b i s => .subscript b.relabel i.relabel s
  | .call f as s => .call f.relabel (relabelAll as) s
  | .unary op e s => .unary op e.relabel s
  | .binary op a b s => .binary op a.relabel b.relabel s
  | .assign op a b s => .assign op a.relabel b.relabel s
  | .conditional c t e s => .conditional c.relabel t.relabel e.relabel s
  | .cast t e s => .cast t e.relabel s
  | .sizeOfType s => .sizeOfType s
  | .sizeOf e s => .sizeOf e.relabel s
  | .comma es s => .comma (relabelAll es) s

def relabelAll : List Expr → List Expr
  | [] => []
  | e :: es => e.relabel :: relabelAll es

end

mutual

theorem align?_relabel : ∀ e : Expr, (e.relabel r).align? e = some (graph r e.mentioned)
  | .int .. | .float .. | .char .. | .str .. | .sizeOfType .. | .ident .. => by
    simp [relabel, align?, Alignment.when, graph, mentioned, nodes, mentions]
  | .field o .. => by simp [relabel, align?, Alignment.when, append?, align?_relabel o, graph]
  | .unary _ e _ | .cast _ e _ | .sizeOf e _ => by
    simp [relabel, align?, Alignment.when, align?_relabel e]
  | .subscript a b _ | .binary _ a b _ | .assign _ a b _ => by
    simp [relabel, align?, Alignment.when, append?, align?_relabel a, align?_relabel b,
      graph_append]
  | .conditional a b c _ => by
    simp [relabel, align?, append?, align?_relabel a, align?_relabel b, align?_relabel c,
      graph_append]
  | .call f as _ => by
    simp [relabel, align?, append?, align?_relabel f, alignAll?_relabelAll as, graph_append]
  | .comma es _ => by simp [relabel, align?, alignAll?_relabelAll es]

theorem alignAll?_relabelAll : ∀ es : List Expr,
    alignAll? (relabelAll r es) es = some (graph r (mentionedIn es))
  | [] => rfl
  | e :: es => by
    simp [relabelAll, alignAll?, append?, align?_relabel e, alignAll?_relabelAll es, graph_append]

end

mutual

theorem relabel_id : ∀ e : Expr, e.relabel id = e
  | .int .. | .float .. | .char .. | .str .. | .sizeOfType .. | .ident .. => rfl
  | .field e .. | .unary _ e _ | .cast _ e _ | .sizeOf e _ => by simp [relabel, relabel_id e]
  | .subscript a b _ | .binary _ a b _ | .assign _ a b _ => by
    simp [relabel, relabel_id a, relabel_id b]
  | .conditional a b c _ => by simp [relabel, relabel_id a, relabel_id b, relabel_id c]
  | .call f as _ => by simp [relabel, relabel_id f, relabelAll_id as]
  | .comma es _ => by simp [relabel, relabelAll_id es]

theorem relabelAll_id : ∀ es : List Expr, relabelAll id es = es
  | [] => rfl
  | e :: es => by simp [relabelAll, relabel_id e, relabelAll_id es]

end

end Relabel

theorem exists_aligned_self (e : Expr) : ∃ ss, e.Aligned e (graph id e.mentioned) ss := by
  have h := align?_relabel id e
  rw [relabel_id] at h
  exact aligned_of_align? e e h

end Expr

theorem Expr.flatMap_occurrences (e : Expr) :
    e.occurrences.flatMap Node.mentions = e.mentioned :=
  List.flatMap_map ..

theorem Expr.flatMap_typeSize (e : Expr) :
    e.occurrences.flatMap Node.typeSize = e.typeSizes :=
  List.flatMap_map ..

open LoopLegality.Alignment

def Initializer.mentioned (i : Initializer) : List Symbol := i.exprs.flatMap Expr.mentioned

mutual

theorem Initializer.pairs_of_align? : ∀ (i j : Initializer) (ps : Alignment),
    i.align? j = some ps → ps.Pairs i.mentioned j.mentioned
  | .expr a, .expr b, ps, h => by
    simpa [mentioned, exprs] using Expr.pairs_of_align? a b ps h
  | .list as, .list bs, ps, h => Initializer.pairs_of_alignAll? as bs ps h
  | .expr _, .list _, _, h | .list _, .expr _, _, h => by cases h

theorem Initializer.pairs_of_alignAll? : ∀ (is js : List Initializer) (ps : Alignment),
    Initializer.alignAll? is js = some ps →
      ps.Pairs ((exprsOf is).flatMap Expr.mentioned) ((exprsOf js).flatMap Expr.mentioned)
  | [], [], ps, h => by
    cases h
    exact pairs_nil
  | i :: is, j :: js, ps, h => by
    rw [exprsOf, exprsOf, List.flatMap_append, List.flatMap_append]
    exact pairs_of_append? h (Initializer.pairs_of_align? i j)
      (Initializer.pairs_of_alignAll? is js)
  | [], _ :: _, _, h | _ :: _, [], _, h => by cases h

end

theorem optionNodes_mentions (e : Option Expr) :
    (optionNodes e).flatMap Node.mentions = (e.map Expr.mentioned).getD [] := by
  cases e with
  | none => rfl
  | some e => exact e.flatMap_occurrences

def Declarator.mentioned (d : Declarator) : List Symbol := d.nodes.flatMap Node.mentions

theorem Declarator.mentioned_eq (d : Declarator) : d.mentioned =
    [d.symbol] ++ (d.dims.flatMap (fun n => (n.map Expr.mentioned).getD []) ++
      (d.init.map Initializer.mentioned).getD []) := by
  have hdims (ns : List (Option Expr)) : (ns.filterMap id).flatMap Expr.mentioned =
      ns.flatMap fun n => (n.map Expr.mentioned).getD [] := by
    induction ns with
    | nil => rfl
    | cons n ns ih =>
      cases n with
      | none => exact ih
      | some n => exact congrArg (n.mentioned ++ ·) ih
  have hinit : ((d.init.map Initializer.exprs).getD []).flatMap Expr.mentioned =
      (d.init.map Initializer.mentioned).getD [] := by
    cases d.init <;> rfl
  simp only [mentioned, nodes, exprs, List.flatMap_cons, Node.mentions, List.flatMap_assoc,
    Expr.flatMap_occurrences, List.flatMap_append, hdims, hinit]

theorem Declarator.pairs_of_align? (d e : Declarator) (ps : Alignment) (h : d.align? e = some ps) :
    ps.Pairs d.mentioned e.mentioned := by
  rw [d.mentioned_eq, e.mentioned_eq]
  refine pairs_of_append? (when_eq_some.mp h).2 (fun _ hq => by cases hq; exact ⟨rfl, rfl⟩) ?_
  exact fun _ h' => pairs_of_append? h'
    (fun _ => pairs_of_list? (f := optional? Expr.align?)
      fun _ _ _ => pairs_of_optional? Expr.pairs_of_align?)
    (fun _ => pairs_of_optional? Initializer.pairs_of_align?)

theorem ForInit.pairs_of_align? (a b : ForInit) (ps : Alignment) (h : a.align? b = some ps) :
    ps.Pairs (a.nodes.flatMap Node.mentions) (b.nodes.flatMap Node.mentions) := by
  cases a with
  | expr e s =>
    cases b with
    | expr d t =>
      simp only [nodes, Expr.flatMap_occurrences]
      exact Expr.pairs_of_align? e d ps h
    | decl | null => cases h
  | decl d =>
    cases b with
    | expr | null => cases h
    | decl e =>
      simp only [nodes, Declaration.nodes, List.flatMap_assoc]
      exact pairs_of_list? Declarator.pairs_of_align? h
  | null s =>
    cases b with
    | expr | decl => cases h
    | null t =>
      cases h
      exact ⟨rfl, rfl⟩

theorem ForHeader.pairs_of_align? {h k : ForHeader} {ps : Alignment}
    (halign : h.align? k = some ps) :
    ps.Pairs h.mentioned k.mentioned := by
  have hinit (i : Option ForInit) : ((i.map ForInit.nodes).getD []).flatMap Node.mentions =
      (i.map fun i => i.nodes.flatMap Node.mentions).getD [] := by
    cases i <;> rfl
  simp only [mentioned, nodes, List.flatMap_append, optionNodes_mentions, hinit, List.append_assoc]
  exact pairs_of_append? halign (fun _ => pairs_of_optional? ForInit.pairs_of_align?)
    fun _ h' => pairs_of_append? h' (fun _ => pairs_of_optional? Expr.pairs_of_align?)
      (fun _ => pairs_of_optional? Expr.pairs_of_align?)

end LoopLegality

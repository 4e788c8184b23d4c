import LoopLegality.Grammar.Program
import LoopLegality.Occurrence
import Mathlib.Data.List.Forall2
import Mathlib.Data.List.Nodup
import Mathlib.Tactic.Common

namespace LoopLegality

/-- What a walk meets that matters to names. An occurrence of a name carries the symbol that
stands for it in the tree. -/
inductive Event where
  | enter
  | leave
  | declare (name : String) (x : Symbol)
  | function (name : String) (x : Symbol)
  | use (name : String) (called : Bool) (x : Symbol)
  | member (name : String) (x : Symbol)
deriving DecidableEq

namespace Token

def firstName : List Token → String × Bool
  | [] => ("", false)
  | t :: ts =>
    if t.kind = .identifier then (t.lexeme, ts.head?.any (·.kind == .punct .leftParen))
    else firstName ts

def nameFrom (offset : Nat) (ts : List Token) : String × Bool :=
  firstName (ts.dropWhile (·.span.first.offset < offset))

/-- The name that a span covers, if it covers one. -/
def nameUnder? (span : Span) (ts : List Token) : Option String :=
  (ts.find? fun t => t.kind == .identifier && t.span == span).map (·.lexeme)

end Token

mutual

/-- The names of an expression in the order written. A name in parentheses stands behind their
start, and the name of a member stands behind its owner. -/
@[simp] def Expr.events (ts : List Token) : Expr → List Event
  | .ident x s => [.use (Token.nameFrom s.first.offset ts).1 (Token.nameFrom s.first.offset ts).2 x]
  | .field o m _ _ => o.events ts ++ [.member (Token.nameFrom o.span.last.offset ts).1 m]
  | .subscript b i _ => b.events ts ++ i.events ts
  | .call f as _ => f.events ts ++ Expr.eventsOf ts as
  | .unary _ e _ | .cast _ e _ | .sizeOf e _ => e.events ts
  | .binary _ l r _ | .assign _ l r _ => l.events ts ++ r.events ts
  | .conditional c t f _ => c.events ts ++ t.events ts ++ f.events ts
  | .comma es _ => Expr.eventsOf ts es
  | .int .. | .float .. | .char .. | .str .. | .sizeOfType _ => []

@[simp] def Expr.eventsOf (ts : List Token) : List Expr → List Event
  | [] => []
  | e :: es => e.events ts ++ Expr.eventsOf ts es

end

/-- The tokens of a text and the table of its bindings, against which a tree is read. -/
structure Reader where
  tokens : List Token
  table : SymbolTable

namespace Reader

def declared? (c : Reader) (x : Symbol) : Option String :=
  (c.table.info? x).bind fun i => Token.nameUnder? i.span c.tokens

/-- Dimensions come before the name is in scope, and the initializer after. -/
def declarator (c : Reader) (unnamed : String) (d : Declarator) : List Event :=
  Expr.eventsOf c.tokens (d.dims.filterMap id) ++
    .declare ((c.declared? d.symbol).getD unnamed) d.symbol ::
      Expr.eventsOf c.tokens ((d.init.map Initializer.exprs).getD [])

def declarators (c : Reader) (ds : List Declarator) : List Event := ds.flatMap (c.declarator "")

def parameters (c : Reader) : Nat → List Declarator → List Event
  | _, [] => []
  | k, d :: ds => c.declarator s!"<param{k}>" d ++ c.parameters (k + 1) ds

def optional (c : Reader) (e : Option Expr) : List Event := Expr.eventsOf c.tokens e.toList

def forInit (c : Reader) : Option ForInit → List Event
  | none | some (.null _) => []
  | some (.decl d) => c.declarators d.declarators
  | some (.expr e _) => e.events c.tokens

def forHeader (c : Reader) (h : ForHeader) : List Event :=
  c.forInit h.init ++ c.optional h.cond ++ c.optional h.incr

mutual

@[simp] def stmt (c : Reader) : Stmt → List Event
  | .decl ds _ => c.declarators ds
  | .expr e _ | .caseLabel e _ => e.events c.tokens
  | .forLoop h b _ => .enter :: (c.forHeader h ++ c.stmt b) ++ [.leave]
  | .compound ss _ => .enter :: c.stmts ss ++ [.leave]
  | .branch e y none _ => e.events c.tokens ++ c.stmt y
  | .branch e y (some n) _ => e.events c.tokens ++ c.stmt y ++ c.stmt n
  | .ret e _ => c.optional e
  | .whileLoop e b _ | .switch e b _ => e.events c.tokens ++ c.stmt b
  | .doWhile b e _ => c.stmt b ++ e.events c.tokens
  | .label _ b _ => c.stmt b
  | .null _ | .defaultLabel _ | .break _ | .continue _ | .goto _ _ => []

@[simp] def stmts (c : Reader) : List Stmt → List Event
  | [] => []
  | s :: ss => c.stmt s ++ c.stmts ss

end

/-- A parameter list is a block, around the body if there is one. -/
def function (c : Reader) (name : String) (x : Symbol) (params : List Declarator)
    (body : Option Stmt) : List Event :=
  .function name x :: .enter :: (c.parameters 0 params ++ c.stmts body.toList) ++ [.leave]

def external (c : Reader) : Grammar.External → List Event
  | .function f => c.function f.name f.symbol f.params (some f.body)
  | .prototype p => c.function p.name p.symbol p.params none
  | .global d => c.declarators d.declarators
  | .nothing => []

def externals (c : Reader) (es : List Grammar.External) : List Event := es.flatMap c.external

end Reader

/-- What a name may stand for: the `k`-th declaration, the one implicit binding of its
spelling, or the member of its spelling. -/
inductive Binding where
  | declared (k : Nat)
  | implicit (name : String)
  | member (name : String)
deriving DecidableEq

/-- The open blocks, innermost first, around the scope of the file, each with its names, newest
first; how many declarations there were; and which bindings are functions. -/
structure Resolver where
  blocks : List (List (String × Binding))
  file : List (String × Binding)
  declarations : Nat
  functions : List Binding

namespace Resolver

def start : Resolver := ⟨[], [], 0, []⟩

/-- The latest declaration of a name in the innermost block that has one. -/
def visible? (r : Resolver) (name : String) : Option Binding :=
  (r.blocks ++ [r.file]).findSome? (·.lookup name)

def function? (r : Resolver) (name : String) : Option Binding :=
  (r.visible? name).filter r.functions.contains

def declare (r : Resolver) (name : String) : Resolver :=
  let entry := (name, Binding.declared r.declarations)
  let declarations := r.declarations + 1
  match r.blocks with
  | [] => { r with file := entry :: r.file, declarations }
  | block :: blocks => { r with blocks := (entry :: block) :: blocks, declarations }

/-- A name that nothing declares is bound for the whole file, to a function if it is called. -/
def bindImplicit (r : Resolver) (name : String) (called : Bool) : Resolver :=
  { r with
    file := (name, .implicit name) :: r.file
    functions := if called then .implicit name :: r.functions else r.functions }

def binding? (r : Resolver) : Event → Option (Symbol × Binding)
  | .enter | .leave => none
  | .declare _ x => some (x, .declared r.declarations)
  | .function name x => some (x, (r.function? name).getD (.declared r.declarations))
  | .use name _ x => some (x, (r.visible? name).getD (.implicit name))
  | .member name x => some (x, .member name)

/-- The scopes after an event. -/
def next (r : Resolver) : Event → Resolver
  | .enter => { r with blocks := [] :: r.blocks }
  | .leave => { r with blocks := r.blocks.tail }
  | .declare name _ => r.declare name
  | .function name _ =>
    match r.function? name with
    | some _ => r
    | none => { r.declare name with functions := .declared r.declarations :: r.functions }
  | .use name called _ =>
    match r.visible? name with
    | some _ => r
    | none => r.bindImplicit name called
  | .member .. => r

/-- Every occurrence of a walk with its binding. -/
def occurrences (r : Resolver) : List Event → List (Symbol × Binding)
  | [] => []
  | e :: es => (r.binding? e).toList ++ (r.next e).occurrences es

def run (r : Resolver) (es : List Event) : Resolver := es.foldl next r

theorem declare_functions (r : Resolver) (name : String) :
    { r.declare name with functions := r.functions } = r.declare name := by
  rw [declare]
  cases r.blocks <;> rfl

theorem occurrences_append (r : Resolver) (es fs : List Event) :
    r.occurrences (es ++ fs) = r.occurrences es ++ (r.run es).occurrences fs := by
  induction es generalizing r with
  | nil => rfl
  | cons e es ih => simp [occurrences, run, ih]

theorem run_append (r : Resolver) (es fs : List Event) : r.run (es ++ fs) = (r.run es).run fs :=
  List.foldl_append

end Resolver

namespace SymbolTable

variable {t u v : SymbolTable}

/-- Every binding of one table is in the other, declared at the same place. -/
def Extends (t u : SymbolTable) : Prop :=
  ∀ x i, t.info? x = some i → ∃ j, u.info? x = some j ∧ j.span = i.span

theorem Extends.refl (t : SymbolTable) : t.Extends t := fun _ i h => ⟨i, h, rfl⟩

theorem Extends.trans (h : t.Extends u) (h' : u.Extends v) : t.Extends v := by
  intro x i hi
  obtain ⟨j, hj, hij⟩ := h x i hi
  obtain ⟨k, hk, hjk⟩ := h' x j hj
  exact ⟨k, hk, hjk.trans hij⟩

theorem info?_declare (t : SymbolTable) (i : Symbol.Info) (x : Symbol) :
    (t.declare i).2.info? x = if x = t.size then some i else t.info? x :=
  Array.getElem?_push

theorem info?_eq_some_lt {x : Symbol} {i : Symbol.Info} (h : t.info? x = some i) : x < t.size :=
  (Array.getElem?_eq_some_iff.mp h).1

theorem extends_declare (t : SymbolTable) (i : Symbol.Info) : t.Extends (t.declare i).2 := by
  intro x j hj
  refine ⟨j, ?_, rfl⟩
  rw [info?_declare, if_neg (Nat.ne_of_lt (info?_eq_some_lt hj)), hj]

theorem size_declare (t : SymbolTable) (i : Symbol.Info) : (t.declare i).2.size = t.size + 1 :=
  Array.size_push ..

theorem kind?_declare (t : SymbolTable) (i : Symbol.Info) (x : Symbol) :
    (t.declare i).2.kind? x = if x = t.size then some i.kind else t.kind? x := by
  rw [kind?, info?_declare]
  split <;> rfl

theorem size_refine (t : SymbolTable) (x : Symbol) (k : Symbol.Kind) :
    (t.refine x k).size = t.size := by
  rw [refine]
  split
  · split
    · exact Array.size_setIfInBounds
    · rfl
  · rfl

theorem info?_refine (t : SymbolTable) (x y : Symbol) (k : Symbol.Kind) :
    (t.refine x k).info? y = t.info? y ∨ ∃ i, t.info? y = some i ∧ i.kind = .implicit ∧
      (t.refine x k).info? y = some { i with kind := k } := by
  cases hx : t.info? x with
  | none => exact .inl (by rw [refine, hx])
  | some i =>
    by_cases hk : i.kind = .implicit
    · simp only [refine, hx, if_pos hk]
      by_cases hyx : x = y
      · subst hyx
        exact .inr ⟨i, hx, hk, Array.getElem?_setIfInBounds_self_of_lt (info?_eq_some_lt hx)⟩
      · exact .inl (Array.getElem?_setIfInBounds_ne hyx)
    · exact .inl (by simp [refine, hx, hk])

theorem extends_refine (t : SymbolTable) (x : Symbol) (k : Symbol.Kind) :
    t.Extends (t.refine x k) := by
  intro y i hi
  obtain h | ⟨j, hj, -, h⟩ := t.info?_refine x y k
  · exact ⟨i, h.trans hi, rfl⟩
  · cases hi.symm.trans hj
    exact ⟨_, h, rfl⟩

theorem kind?_refine_array (t : SymbolTable) (x y : Symbol) (rank : Nat) :
    (t.refine x (.array rank)).kind? y = some .function ↔ t.kind? y = some .function := by
  rw [kind?, kind?]
  obtain h | ⟨i, hi, hk, h⟩ := t.info?_refine x y (.array rank)
  · rw [h]
  · simp [h, hi, hk]

end SymbolTable

namespace Scopes

/-- What one operation on the scopes amounts to. To learn that a name is an array is no event,
and the kind of a new binding matters only where it is or is not a function. -/
inductive Step : Scopes → List Event → Scopes → Prop
  | enter (s : Scopes) : Step s [.enter] s.push
  | leave (s : Scopes) : Step s [.leave] s.pop
  | refine (s : Scopes) (x : Symbol) (rank : Nat) : Step s [] (s.refine x (.array rank))
  | use (s : Scopes) (name : String) (called : Bool) :
      Step s [.use name called (s.resolve name (if called then .function else .implicit)).1]
        (s.resolve name (if called then .function else .implicit)).2
  | member (s : Scopes) (name : String) : Step s [.member name (s.member name).1] (s.member name).2
  | declare (s : Scopes) (name : String) {kind : Symbol.Kind} (span : Span) :
      kind ≠ .function → Step s [.declare name (s.declare name kind span).1]
        (s.declare name kind span).2
  | again {s : Scopes} {name : String} {x : Symbol} : s.lookup? name = some x →
      s.table.kind? x = some .function → Step s [.function name x] s
  | function {s : Scopes} {name : String} (span : Span) :
      (∀ x, s.lookup? name = some x → s.table.kind? x ≠ some .function) →
      Step s [.function name (s.declare name .function span).1] (s.declare name .function span).2

inductive Runs : Scopes → List Event → Scopes → Prop
  | nil (s : Scopes) : Runs s [] s
  | cons {s s' s'' : Scopes} {es fs : List Event} : Step s es s' → Runs s' fs s'' →
      Runs s (es ++ fs) s''

variable {s s' s'' : Scopes} {es fs : List Event}

theorem Step.runs (h : Step s es s') : Runs s es s' := by
  simpa using Runs.cons h (.nil s')

theorem Runs.trans (h : Runs s es s') (h' : Runs s' fs s'') : Runs s (es ++ fs) s'' := by
  induction h with
  | nil => exact h'
  | cons hstep _ ih =>
    rw [List.append_assoc]
    exact .cons hstep (ih h')

theorem declare_fst (s : Scopes) (name : String) (kind : Symbol.Kind) (span : Span) :
    (s.declare name kind span).1 = s.table.size := by
  rw [declare]
  cases s.blocks <;> rfl

theorem declare_table (s : Scopes) (name : String) (kind : Symbol.Kind) (span : Span) :
    (s.declare name kind span).2.table = (s.table.declare ⟨name, kind, span, s.depth⟩).2 := by
  rw [declare]
  cases s.blocks <;> rfl

theorem extends_resolve (s : Scopes) (name : String) (kind : Symbol.Kind) :
    s.table.Extends (s.resolve name kind).2.table := by
  rw [resolve]
  split
  · exact .refl _
  · exact s.table.extends_declare _

theorem extends_member (s : Scopes) (name : String) :
    s.table.Extends (s.member name).2.table := by
  rw [member]
  split
  · exact .refl _
  · exact s.table.extends_declare _

theorem Step.extends (h : Step s es s') : s.table.Extends s'.table := by
  cases h with
  | enter | leave | again => exact .refl _
  | refine x rank => exact s.table.extends_refine x _
  | use name called => exact s.extends_resolve name _
  | member name => exact s.extends_member name
  | declare name span _ | function span _ =>
    rw [declare_table]
    exact s.table.extends_declare _

theorem Runs.extends (h : Runs s es s') : s.table.Extends s'.table := by
  induction h with
  | nil => exact .refl _
  | cons hstep _ ih => exact hstep.extends.trans ih

end Scopes

/-- The bindings `bs` of a table, in its order, of which some are functions. -/
structure Bound (t : SymbolTable) (functions bs : List Binding) : Prop where
  size : bs.length = t.size
  nodup : bs.Nodup
  kind : ∀ x b, bs[x]? = some b → (t.kind? x = some .function ↔ b ∈ functions)
  known : functions ⊆ bs

theorem Bound.declare {t : SymbolTable} {functions bs : List Binding} {b : Binding}
    (h : Bound t functions bs) (hb : b ∉ bs) (i : Symbol.Info) :
    Bound (t.declare i).2 (if i.kind = .function then b :: functions else functions)
      (bs ++ [b]) where
  size := by rw [t.size_declare, List.length_append, h.size, List.length_singleton]
  nodup := List.nodup_append.mpr ⟨h.nodup, List.nodup_singleton b, by
    rintro a ha c hc rfl
    exact hb (List.mem_singleton.mp hc ▸ ha)⟩
  kind := by
    intro x c hc
    rw [t.kind?_declare]
    rcases Nat.lt_trichotomy x t.size with hx | rfl | hx
    · -- An old binding is not the new one.
      rw [List.getElem?_append_left (h.size ▸ hx)] at hc
      have hne : c ≠ b := fun heq => hb (heq ▸ List.mem_of_getElem? hc)
      rw [if_neg (Nat.ne_of_lt hx), h.kind x c hc]
      split <;> simp [hne]
    · obtain rfl : b = c := by simpa [← h.size] using hc
      rw [if_pos rfl]
      by_cases hf : i.kind = .function
      · simp [hf]
      · simpa [hf] using fun hk => hb (h.known hk)
    · have hlen : (bs ++ [b]).length ≤ x := by
        rw [List.length_append, h.size]
        exact hx
      simp [List.getElem?_eq_none hlen] at hc
  known := by
    have hknown : functions ⊆ bs ++ [b] :=
      List.Subset.trans h.known (List.subset_append_left bs [b])
    split
    · exact List.cons_subset.mpr ⟨by simp, hknown⟩
    · exact hknown

theorem getElem?_of_prefix {bs cs : List Binding} {x : Symbol} {b : Binding} (h : bs <+: cs)
    (hx : bs[x]? = some b) : cs[x]? = some b := by
  obtain ⟨ds, rfl⟩ := h
  rw [List.getElem?_append_left (List.getElem?_eq_some_iff.mp hx).1, hx]

def SameFrame (bs : List Binding) : Frame → List (String × Binding) → Prop :=
  List.Forall₂ fun p q => p.1 = q.1 ∧ bs[p.2]? = some q.2

namespace SameFrame

variable {bs cs : List Binding} {f : Frame} {g : List (String × Binding)}

theorem mono (h : SameFrame bs f g) (hbs : bs <+: cs) : SameFrame cs f g :=
  h.imp fun _ _ hpq => ⟨hpq.1, getElem?_of_prefix hbs hpq.2⟩

theorem lookup (h : SameFrame bs f g) (name : String) :
    Option.Rel (fun x b => bs[x]? = some b) (f.lookup name) (g.lookup name) := by
  induction h with
  | nil => exact .none
  | @cons p q f g hpq _ ih =>
    obtain ⟨n, x⟩ := p
    obtain ⟨m, b⟩ := q
    obtain ⟨rfl, hx⟩ := hpq
    rw [List.lookup_cons, List.lookup_cons]
    cases name == n with
    | true => exact .some hx
    | false => exact ih

end SameFrame

/-- The scopes of the table and of the resolver, name by name, where `bs` are the bindings of
the table. -/
structure Agree (s : Scopes) (r : Resolver) (bs : List Binding) : Prop where
  bound : Bound s.table r.functions bs
  blocks : List.Forall₂ (SameFrame bs) s.blocks r.blocks
  file : SameFrame bs s.file r.file
  members : ∀ name x, s.members.lookup name = some x → bs[x]? = some (.member name)
  declared : ∀ k, .declared k ∈ bs → k < r.declarations
  implicit : ∀ name, .implicit name ∈ bs → s.file.lookup name ≠ none
  member : ∀ name, .member name ∈ bs → s.members.lookup name ≠ none

namespace Agree

variable {s s' : Scopes} {r : Resolver} {bs : List Binding} {es : List Event}

theorem start : Agree .empty .start [] where
  bound := ⟨rfl, List.nodup_nil, nofun, List.nil_subset _⟩
  blocks := .nil
  file := .nil
  members := nofun
  declared := nofun
  implicit := nofun
  member := nofun

theorem lookup (h : Agree s r bs) (name : String) :
    Option.Rel (fun x b => bs[x]? = some b) (s.lookup? name) (r.visible? name) := by
  have hall : List.Forall₂ (SameFrame bs) (s.blocks ++ [s.file]) (r.blocks ++ [r.file]) :=
    List.rel_append h.blocks (.cons h.file .nil)
  rw [Scopes.lookup?, Resolver.visible?]
  generalize s.blocks ++ [s.file] = fs at hall ⊢
  generalize r.blocks ++ [r.file] = gs at hall ⊢
  induction hall with
  | nil => exact .none
  | @cons f g fs gs hfg _ ih =>
    have hhead := hfg.lookup name
    rw [List.findSome?_cons, List.findSome?_cons]
    generalize List.lookup name f = a at hhead ⊢
    generalize List.lookup name g = b at hhead ⊢
    cases hhead with
    | some hx => exact .some hx
    | none => exact ih

theorem file_lookup_eq_none {name : String} (h : s.lookup? name = none) :
    s.file.lookup name = none := by
  rw [Scopes.lookup?, List.findSome?_eq_none_iff] at h
  exact h s.file (by simp)

theorem getElem?_size (h : Agree s r bs) (b : Binding) :
    (bs ++ [b])[s.table.size]? = some b := by
  simp [← h.bound.size]

theorem push (h : Agree s r bs) : Agree s.push (r.next .enter) bs :=
  { h with blocks := .cons .nil h.blocks }

theorem pop (h : Agree s r bs) : Agree s.pop (r.next .leave) bs := by
  have htail : List.Forall₂ (SameFrame bs) s.blocks.tail r.blocks.tail := by
    have hblocks := h.blocks
    generalize s.blocks = fs at hblocks ⊢
    generalize r.blocks = gs at hblocks ⊢
    cases hblocks with
    | nil => exact .nil
    | cons _ htail => exact htail
  exact { h with blocks := htail }

theorem refine (h : Agree s r bs) (x : Symbol) (rank : Nat) :
    Agree (s.refine x (.array rank)) r bs :=
  { h with bound := { h.bound with
      size := h.bound.size.trans (s.table.size_refine x _).symm
      kind := fun y b hb => (s.table.kind?_refine_array x y rank).trans (h.bound.kind y b hb) } }

theorem declare (h : Agree s r bs) (name : String) (kind : Symbol.Kind) (span : Span) :
    Agree (s.declare name kind span).2
      { r.declare name with functions :=
          if kind = .function then .declared r.declarations :: r.functions else r.functions }
      (bs ++ [.declared r.declarations]) := by
  have hfresh : .declared r.declarations ∉ bs := fun hb => Nat.lt_irrefl _ (h.declared _ hb)
  have hbound := h.bound.declare hfresh ⟨name, kind, span, s.depth⟩
  have hprefix : bs <+: bs ++ [.declared r.declarations] := List.prefix_append _ _
  have hmembers n x (hx : s.members.lookup n = some x) :=
    getElem?_of_prefix hprefix (h.members n x hx)
  have hdeclared k (hk : .declared k ∈ bs ++ [.declared r.declarations]) :
      k < r.declarations + 1 := by
    rcases List.mem_append.mp hk with hk | hk
    · exact Nat.lt_succ_of_lt (h.declared k hk)
    · cases List.mem_singleton.mp hk
      exact Nat.lt_succ_self _
  have himplicit n (hn : .implicit n ∈ bs ++ [.declared r.declarations]) :=
    h.implicit n (by simpa using hn)
  have hmember n (hn : .member n ∈ bs ++ [.declared r.declarations]) :=
    h.member n (by simpa using hn)
  have hnew := h.getElem?_size (.declared r.declarations)
  have hblocks : List.Forall₂ (SameFrame (bs ++ [.declared r.declarations])) s.blocks r.blocks :=
    h.blocks.imp fun _ _ hf => hf.mono hprefix
  have hfile := h.file.mono hprefix
  rw [Scopes.declare, Resolver.declare]
  generalize s.blocks = fs at hblocks ⊢
  generalize r.blocks = gs at hblocks ⊢
  cases hblocks with
  | nil =>
    refine ⟨hbound, .nil, .cons ⟨rfl, hnew⟩ hfile, hmembers, hdeclared, fun n hn => ?_, hmember⟩
    rw [List.lookup_cons]
    split
    · nofun
    · exact himplicit n hn
  | cons hblock hblocks =>
    exact ⟨hbound, .cons (.cons ⟨rfl, hnew⟩ hblock) hblocks, hfile, hmembers, hdeclared, himplicit,
      hmember⟩

theorem bindImplicit (h : Agree s r bs) {name : String} (hname : s.lookup? name = none)
    (called : Bool) :
    Agree { s with
        table := (s.table.declare ⟨name, if called then .function else .implicit, .none, 0⟩).2
        file := (name, s.table.size) :: s.file }
      (r.bindImplicit name called) (bs ++ [.implicit name]) := by
  have hfresh : .implicit name ∉ bs := fun hb => h.implicit name hb (file_lookup_eq_none hname)
  have hprefix : bs <+: bs ++ [.implicit name] := List.prefix_append _ _
  refine ⟨?_, h.blocks.imp fun _ _ hf => hf.mono hprefix,
    .cons ⟨rfl, h.getElem?_size _⟩ (h.file.mono hprefix),
    fun n x hx => getElem?_of_prefix hprefix (h.members n x hx),
    fun k hk => h.declared k (by simpa using hk), fun n hn => ?_,
    fun n hn => h.member n (by simpa using hn)⟩
  · have hbound := h.bound.declare hfresh
      ⟨name, if called then .function else .implicit, .none, 0⟩
    cases called <;> exact hbound
  · rw [List.lookup_cons]
    split
    · nofun
    · rename_i hne
      exact h.implicit n (by simpa [beq_eq_false_iff_ne.mp hne] using hn)

theorem bindMember (h : Agree s r bs) {name : String} (hname : s.members.lookup name = none) :
    Agree { s with
        table := (s.table.declare ⟨name, .field, .none, 0⟩).2
        members := (name, s.table.size) :: s.members }
      r (bs ++ [.member name]) := by
  have hfresh : .member name ∉ bs := fun hb => h.member name hb hname
  have hprefix : bs <+: bs ++ [.member name] := List.prefix_append _ _
  refine ⟨h.bound.declare hfresh ⟨name, .field, .none, 0⟩,
    h.blocks.imp fun _ _ hf => hf.mono hprefix, h.file.mono hprefix, fun n x hx => ?_,
    fun k hk => h.declared k (by simpa using hk), fun n hn => h.implicit n (by simpa using hn),
    fun n hn => ?_⟩
  · rw [List.lookup_cons] at hx
    split at hx
    · rename_i heq
      cases hx
      rw [eq_of_beq heq]
      exact h.getElem?_size _
    · exact getElem?_of_prefix hprefix (h.members n x hx)
  · rw [List.lookup_cons]
    split
    · nofun
    · rename_i hne
      exact h.member n (by simpa [beq_eq_false_iff_ne.mp hne] using hn)

theorem function (h : Agree s r bs) (name : String) :
    Option.Rel (fun x b => bs[x]? = some b)
      ((s.lookup? name).filter fun x => s.table.kind? x = some .function) (r.function? name) := by
  have hlookup := h.lookup name
  rw [Resolver.function?]
  generalize s.lookup? name = a at hlookup ⊢
  generalize r.visible? name = b at hlookup ⊢
  cases hlookup with
  | none => exact .none
  | @some x b hx =>
    by_cases hkind : s.table.kind? x = some .function
    · simpa [Option.filter, hkind, (h.bound.kind x b hx).mp hkind] using hx
    · simp [Option.filter, hkind, mt (h.bound.kind x b hx).mpr hkind]

/-- The bindings `bs` grow to bindings `cs`, by which the occurrences of a walk are bound as the
resolver says. -/
structure Follows (r : Resolver) (bs : List Binding) (es : List Event) (s' : Scopes)
    (cs : List Binding) : Prop where
  grows : bs <+: cs
  agree : Agree s' (r.run es) cs
  bound : ∀ o ∈ r.occurrences es, cs[o.1]? = some o.2

theorem follows_old {e : Event} {x : Symbol} {b : Binding} (h : Agree s' (r.next e) bs)
    (he : r.binding? e = some (x, b)) (hx : bs[x]? = some b) : Follows r bs [e] s' bs where
  grows := List.prefix_rfl
  agree := h
  bound := by simpa [Resolver.occurrences, he] using hx

theorem follows_new {e : Event} {b : Binding} (h : Agree s r bs)
    (hnew : Agree s' (r.next e) (bs ++ [b])) (he : r.binding? e = some (s.table.size, b)) :
    Follows r bs [e] s' (bs ++ [b]) where
  grows := List.prefix_append _ _
  agree := hnew
  bound := by simpa [Resolver.occurrences, he] using h.getElem?_size b

/-- What one operation on the scopes binds is what the resolver binds. -/
theorem step (h : Agree s r bs) (hstep : Scopes.Step s es s') : ∃ cs, Follows r bs es s' cs := by
  cases hstep with
  | enter => exact ⟨bs, List.prefix_rfl, h.push, nofun⟩
  | leave => exact ⟨bs, List.prefix_rfl, h.pop, nofun⟩
  | refine x rank => exact ⟨bs, List.prefix_rfl, h.refine x rank, nofun⟩
  | use name called =>
    have hlookup := h.lookup name
    rw [Scopes.resolve]
    generalize hs : s.lookup? name = a at hlookup ⊢
    generalize hr : r.visible? name = b at hlookup
    cases hlookup with
    | some hx =>
      exact ⟨_, follows_old (by simpa [Resolver.next, hr] using h)
        (by simp [Resolver.binding?, hr]) hx⟩
    | none =>
      exact ⟨_, follows_new h (by rw [Resolver.next, hr]; exact h.bindImplicit hs called)
        (by simp [Resolver.binding?, hr, SymbolTable.declare])⟩
  | member name =>
    rw [Scopes.member]
    cases hs : s.members.lookup name with
    | some x => exact ⟨_, follows_old h rfl (h.members name x hs)⟩
    | none => exact ⟨_, follows_new h (h.bindMember hs) rfl⟩
  | @declare name kind span hkind =>
    have hnew := h.declare name kind span
    rw [if_neg hkind, Resolver.declare_functions] at hnew
    exact ⟨_, follows_new h hnew (by rw [Scopes.declare_fst]; rfl)⟩
  | @again name x hs hkind =>
    have hfunction := h.function name
    rw [hs, Option.filter_some_pos (by simpa using hkind)] at hfunction
    generalize hr : r.function? name = b at hfunction
    cases hfunction with
    | some hx =>
      exact ⟨_, follows_old (by simpa [Resolver.next, hr] using h)
        (by simp [Resolver.binding?, hr]) hx⟩
  | @function name span hnone =>
    have hfunction := h.function name
    rw [Option.filter_eq_none_iff.mpr (by simpa using hnone)] at hfunction
    generalize hr : r.function? name = b at hfunction
    cases hfunction with
    | none =>
      have hnew := h.declare name .function span
      rw [if_pos rfl] at hnew
      exact ⟨_, follows_new h (by simpa [Resolver.next, hr] using hnew)
        (by simp [Resolver.binding?, hr, Scopes.declare_fst])⟩

theorem run (h : Agree s r bs) (hrun : Scopes.Runs s es s') : ∃ cs, Follows r bs es s' cs := by
  induction hrun generalizing r bs with
  | nil => exact ⟨bs, List.prefix_rfl, h, nofun⟩
  | @cons s₀ s₁ s₂ es fs hstep _ ih =>
    obtain ⟨cs, hcs⟩ := h.step hstep
    obtain ⟨ds, hds⟩ := ih hcs.agree
    refine ⟨ds, hcs.grows.trans hds.grows, by rw [Resolver.run_append]; exact hds.agree, ?_⟩
    intro o ho
    rw [Resolver.occurrences_append, List.mem_append] at ho
    rcases ho with ho | ho
    · exact getElem?_of_prefix hds.grows (hcs.bound o ho)
    · exact hds.bound o ho

end Agree

/-- Two occurrences of a walk from the start have one symbol just if they have one binding. -/
theorem Scopes.Runs.symbol_eq_iff {s : Scopes} {es : List Event} (h : Runs .empty es s)
    {o o' : Symbol × Binding} (ho : o ∈ Resolver.start.occurrences es)
    (ho' : o' ∈ Resolver.start.occurrences es) : o.1 = o'.1 ↔ o.2 = o'.2 := by
  obtain ⟨bs, hbs⟩ := Agree.start.run h
  have hb : bs[o.1]? = some o.2 := hbs.bound o ho
  have hb' : bs[o'.1]? = some o'.2 := hbs.bound o' ho'
  constructor
  · intro hsymbol
    rw [hsymbol] at hb
    exact Option.some.inj (hb.symm.trans hb')
  · intro hbinding
    rw [hbinding] at hb
    exact (List.getElem?_inj (List.getElem?_eq_some_iff.mp hb).1 hbs.agree.bound.nodup).mp
      (hb.trans hb'.symm)

end LoopLegality

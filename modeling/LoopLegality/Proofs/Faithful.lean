import LoopLegality.Proofs.Excerpt
import LoopLegality.Proofs.Trace

namespace LoopLegality

namespace Scopes

def Names.bind (v : Names) (name : String) (x : Symbol) : Names :=
  match v.blocks with
  | [] => { v with file := (name, x) :: v.file, count := v.count + 1 }
  | frame :: frames =>
    { v with blocks := ((name, x) :: frame) :: frames, count := v.count + 1 }

/-- What an event does to names. A symbol other than the next one is bound already. -/
def Names.after (v : Names) : Event → Names
  | .enter => { v with blocks := [] :: v.blocks }
  | .leave => { v with blocks := v.blocks.tail }
  | .declare name x => v.bind name x
  | .function name x => if x = v.count then v.bind name x else v
  | .use name _ x =>
    if x = v.count then { v with file := (name, x) :: v.file, count := v.count + 1 } else v
  | .member name x =>
    if x = v.count then { v with members := (name, x) :: v.members, count := v.count + 1 } else v

variable {s s' a b : Scopes} {r : Resolver} {bs : List Binding} {es : List Event}

theorem lt_size_of_getElem? (h : Agree s r bs) {x : Symbol} {b : Binding} (hx : bs[x]? = some b) :
    x < s.table.size :=
  h.bound.size ▸ (List.getElem?_eq_some_iff.mp hx).1

theorem lt_size_of_lookup? (h : Agree s r bs) {name : String} {x : Symbol}
    (hx : s.lookup? name = some x) : x < s.table.size := by
  have hlookup := h.lookup name
  rw [hx] at hlookup
  generalize r.visible? name = b at hlookup
  cases hlookup with
  | some hb => exact lt_size_of_getElem? h hb

theorem names_declare (s : Scopes) (name : String) (kind : Symbol.Kind) (span : Span) :
    (s.declare name kind span).2.names = s.names.bind name s.table.size := by
  obtain ⟨table, blocks, file, members⟩ := s
  cases blocks <;>
    simp only [declare, names, Names.bind, SymbolTable.size_declare] <;> rfl

theorem Step.names_eq_foldl (h : Step s es s') (hagree : Agree s r bs) :
    s'.names = es.foldl Names.after s.names := by
  cases h with
  | enter | leave => rfl
  | refine x rank => exact s.names_refine x _
  | use name called =>
    rw [resolve]
    cases hlookup : s.lookup? name with
    | some x => exact (if_neg (lt_size_of_lookup? hagree hlookup).ne).symm
    | none => simp [names, Names.after, SymbolTable.declare, SymbolTable.size]
  | member name =>
    rw [Scopes.member]
    cases hlookup : s.members.lookup name with
    | some x =>
      exact (if_neg (lt_size_of_getElem? hagree (hagree.members name x hlookup)).ne).symm
    | none => simp [names, Names.after, SymbolTable.declare, SymbolTable.size]
  | declare name span hkind =>
    rw [names_declare, declare_fst]
    rfl
  | again hlookup hkind => exact (if_neg (lt_size_of_lookup? hagree hlookup).ne).symm
  | function span hnone =>
    rw [names_declare, declare_fst]
    exact (if_pos rfl).symm

theorem Runs.names_eq_foldl (h : Runs s es s') (hagree : Agree s r bs) :
    s'.names = es.foldl Names.after s.names := by
  induction h generalizing r bs with
  | nil => rfl
  | cons hstep _ ih =>
    obtain ⟨cs, hcs⟩ := hagree.step hstep
    rw [List.foldl_append, ← hstep.names_eq_foldl hagree]
    exact ih hcs.agree

theorem Runs.names_unique (ha : Runs .empty es a) (hb : Runs .empty es b) : a.names = b.names :=
  (ha.names_eq_foldl .start).trans (hb.names_eq_foldl .start).symm

end Scopes

section Nodes

def Node.expr? : Node → Option Expr
  | .expr e => some e
  | .declarator _ => none

/-- The expressions at an item, outer before inner. -/
def Item.exprs : Item → List Expr
  | .expr e => e.nodes
  | .event _ | .loop _ => []

namespace Expr

theorem nodesOf_eq_flatMap (es : List Expr) : nodesOf es = es.flatMap nodes := by
  induction es with
  | nil => rfl
  | cons e es ih => rw [nodesOf, ih, List.flatMap_cons]

theorem nodes_eq_cons (e : Expr) : e.nodes = e :: e.children.flatMap nodes := by
  cases e <;> simp [nodes, children, nodesOf_eq_flatMap]

theorem exists_standsIn (ts : List Token) {d e : Expr} (h : d ∈ e.nodes) :
    ∃ inner, StandsIn ts inner d e := by
  rw [nodes_eq_cons, List.mem_cons, List.mem_flatMap] at h
  obtain rfl | ⟨o, ho, hd⟩ := h
  · exact ⟨[], .self d⟩
  · obtain ⟨pre, post, hchildren⟩ := List.append_of_mem ho
    have hlt : o.nodes.length < e.nodes.length := by
      rw [nodes_eq_cons e, hchildren, List.flatMap_append, List.flatMap_cons]
      simp only [List.length_cons, List.length_append]
      omega
    obtain ⟨inner, hinner⟩ := exists_standsIn ts hd
    exact ⟨_, .inside hchildren hinner⟩
termination_by e.nodes.length

theorem filterMap_occurrences (e : Expr) : e.occurrences.filterMap Node.expr? = e.nodes := by
  rw [occurrences, List.filterMap_map]
  exact List.filterMap_some

end Expr

namespace Reader

variable (c : Reader)

theorem exprs_map (es : List Expr) :
    (es.map Item.expr).flatMap Item.exprs =
      (es.flatMap Expr.occurrences).filterMap Node.expr? := by
  induction es with
  | nil => rfl
  | cons e es ih => simp [ih, Expr.filterMap_occurrences, Item.exprs]

theorem exprs_declaratorItems (unnamed : String) (d : Declarator) :
    (c.declaratorItems unnamed d).flatMap Item.exprs = d.nodes.filterMap Node.expr? := by
  rw [Declarator.nodes, List.filterMap_cons_none rfl, Declarator.exprs, List.flatMap_append,
    List.filterMap_append, ← exprs_map, ← exprs_map, declaratorItems, List.flatMap_append]
  rfl

theorem exprs_declarationItems (ds : List Declarator) :
    (c.declarationItems ds).flatMap Item.exprs =
      (ds.flatMap Declarator.nodes).filterMap Node.expr? := by
  induction ds with
  | nil => rfl
  | cons d ds ih =>
    simp only [declarationItems, List.flatMap_cons, List.flatMap_append, List.filterMap_append,
      exprs_declaratorItems] at ih ⊢
    rw [ih]

theorem exprs_parameterItems (k : Nat) (ds : List Declarator) :
    (c.parameterItems k ds).flatMap Item.exprs =
      (ds.flatMap Declarator.nodes).filterMap Node.expr? := by
  induction ds generalizing k with
  | nil => rfl
  | cons d ds ih => simp [parameterItems, exprs_declaratorItems, ih]

theorem exprs_optional (e : Option Expr) :
    (e.toList.map Item.expr).flatMap Item.exprs = (optionNodes e).filterMap Node.expr? := by
  cases e <;> simp [optionNodes, Item.exprs, Expr.filterMap_occurrences]

theorem exprs_forHeaderItems (h : ForHeader) :
    (c.forHeaderItems h).flatMap Item.exprs = h.nodes.filterMap Node.expr? := by
  have hinit : (c.forInitItems h.init).flatMap Item.exprs =
      ((h.init.map ForInit.nodes).getD []).filterMap Node.expr? := by
    cases h.init with
    | none => rfl
    | some i =>
      cases i with
      | decl d => exact c.exprs_declarationItems d.declarators
      | expr e a => simp [forInitItems, ForInit.nodes, Item.exprs, Expr.filterMap_occurrences]
      | null s => rfl
  simp [forHeaderItems, ForHeader.nodes, hinit, exprs_optional]

mutual

theorem exprs_stmtItems : ∀ s : Stmt,
    (c.stmtItems s).flatMap Item.exprs = s.nodes.filterMap Node.expr?
  | .decl ds _ => c.exprs_declarationItems ds
  | .expr e _ | .caseLabel e _ => by simp [Stmt.nodes, Item.exprs, Expr.filterMap_occurrences]
  | .forLoop h b _ => by
    simp [Stmt.nodes, Item.exprs, exprs_forHeaderItems, exprs_stmtItems b]
  | .compound ss _ => by simp [Stmt.nodes, Item.exprs, exprs_blockItems ss]
  | .branch e y none _ => by
    simp [Stmt.nodes, Item.exprs, Expr.filterMap_occurrences, exprs_stmtItems y]
  | .branch e y (some n) _ => by
    simp [Stmt.nodes, Item.exprs, Expr.filterMap_occurrences, exprs_stmtItems y,
      exprs_stmtItems n]
  | .ret e _ => by simp [Stmt.nodes, exprs_optional]
  | .whileLoop e b _ | .switch e b _ => by
    simp [Stmt.nodes, Item.exprs, Expr.filterMap_occurrences, exprs_stmtItems b]
  | .doWhile b e _ => by
    simp [Stmt.nodes, Item.exprs, Expr.filterMap_occurrences, exprs_stmtItems b]
  | .label _ b _ => by simp [Stmt.nodes, exprs_stmtItems b]
  | .null _ | .defaultLabel _ | .break _ | .continue _ | .goto _ _ => by simp [Stmt.nodes]

theorem exprs_blockItems : ∀ ss : List Stmt,
    (c.blockItems ss).flatMap Item.exprs = (Stmt.nodesOf ss).filterMap Node.expr?
  | [] => by simp [Stmt.nodesOf]
  | s :: ss => by simp [Stmt.nodesOf, exprs_stmtItems s, exprs_blockItems ss]

end

theorem exprs_functionItems (name : String) (x : Symbol) (params : List Declarator) (body : Stmt) :
    (c.functionItems name x params (some body)).flatMap Item.exprs =
      (params.flatMap Declarator.nodes ++ body.nodes).filterMap Node.expr? := by
  simp [functionItems, Item.exprs, exprs_parameterItems, exprs_stmtItems]

end Reader

namespace Program

def nodes (p : Program) : List Node :=
  p.functions.flatMap (fun f => f.params.flatMap Declarator.nodes ++ f.body.nodes) ++
    p.globals.flatMap Declaration.nodes

theorem exists_item (c : Reader) {es : List Grammar.External} {t : SymbolTable} {d : Expr}
    (h : .expr d ∈ (ofExternals es t).nodes) :
    ∃ root, .expr root ∈ es.flatMap c.externalItems ∧ d ∈ root.nodes := by
  have hof (x : Grammar.External) (hx : x ∈ es)
      (hd : d ∈ (c.externalItems x).flatMap Item.exprs) :
      ∃ root, .expr root ∈ es.flatMap c.externalItems ∧ d ∈ root.nodes := by
    obtain ⟨i, hi, hd⟩ := List.mem_flatMap.mp hd
    cases i with
    | expr root => exact ⟨root, List.mem_flatMap.mpr ⟨x, hx, hi⟩, hd⟩
    | event _ | loop _ => cases hd
  rw [nodes, List.mem_append, List.mem_flatMap, List.mem_flatMap] at h
  obtain ⟨f, hf, hd⟩ | ⟨g, hg, hd⟩ := h
  · obtain ⟨x, hx, hxf⟩ := List.mem_filterMap.mp hf
    cases x with
    | function f' =>
      cases hxf
      refine hof _ hx ?_
      rw [Reader.externalItems, Reader.exprs_functionItems]
      exact List.mem_filterMap.mpr ⟨_, hd, rfl⟩
    | _ => cases hxf
  · obtain ⟨x, hx, hxg⟩ := List.mem_filterMap.mp hg
    cases x with
    | global g' =>
      cases hxg
      refine hof _ hx ?_
      rw [Reader.externalItems, Reader.exprs_declarationItems]
      exact List.mem_filterMap.mpr ⟨_, hd, rfl⟩
    | _ => cases hxg

end Program

end Nodes

namespace Grammar

variable {all : List Token} {s s' : State} {i : Item} {pre post : List Item} {root d : Expr}

theorem Does.runs (h : Does all s i s') : Scopes.Runs s.scopes (i.events all) s'.scopes := by
  cases h with
  | event hstep => exact hstep.runs
  | expr f w h =>
    obtain ⟨ts, hts⟩ := formOf_walks f w h
    exact hts.scopes _ (.refl _)
  | loop => exact .nil _

/-- An expression on the way was read where the scopes are those behind the items before it. -/
theorem Goes.exists_before (h : Goes all s (pre ++ .expr root :: post) s') :
    ∃ s₁ s₂ f, Within all s₁ ∧ formOf f s₁ = .ok (root, s₂) ∧
      Scopes.Runs s.scopes (pre.flatMap (Item.events all)) s₁.scopes := by
  induction pre generalizing s with
  | nil =>
    cases h with
    | cons hskip hdoes _ =>
      cases hdoes with
      | expr f w h => exact ⟨_, _, f, w, h, hskip.scopes ▸ .nil _⟩
  | cons i pre ih =>
    cases h with
    | cons hskip hdoes hgoes =>
      obtain ⟨s₁, s₂, f, w, hf, hruns⟩ := ih hgoes
      have hfirst := hdoes.runs
      rw [hskip.scopes] at hfirst
      exact ⟨s₁, s₂, f, w, hf, hfirst.trans hruns⟩

theorem Goes.stands {inner : List Event} (h : Goes all s (pre ++ .expr root :: post) s')
    (hd : Expr.StandsIn all inner d root) :
    Stands all s.scopes (pre.flatMap (Item.events all) ++ inner) d := by
  obtain ⟨s₁, s₂, f, w, hf, hruns⟩ := h.exists_before
  obtain ⟨ts, hts⟩ := formOf_yields f w hf
  obtain ⟨hencloses, us, sc, v, hus, hcovers, hinner, hback⟩ := hts.allStand inner d hd
  exact ⟨hencloses, us, sc, v, hus, hcovers, hruns.trans hinner, hback⟩

/-- A text with the tokens that an expression is read from, places apart, is read to its end as
the expression. -/
theorem Back.expression_eq {us : List Token} {v v' : Scopes.Names} {text : String} {sc : Scopes}
    (h : Back 0 us d v v')
    (hscan : (Token.scan text).erase = ⟨us.map Token.erase, Token.ending⟩) (hsc : sc.names = v)
    (q : Span) (nl : Nat) :
    ∃ e eof q' sc', expression ⟨(Token.scan text).tokens, (Token.scan text).ending, q, sc, nl⟩ =
      .ok (e, ⟨[], .ok eof, q', sc', nl⟩) ∧ e.erase = d.erase := by
  obtain ⟨eof, heof⟩ : ∃ eof : Token, eof = ⟨.eof, "", .none⟩ := ⟨_, rfl⟩
  obtain ⟨sc', -, hrun⟩ := h.rereads (16 * (us.length + 1)) (by omega) [] eof q nl
    (ends_of_closer (by simp [heof])) hsc
  rw [List.append_nil] at hrun
  have hexpression : expression ⟨us, .ok eof, q, sc, nl⟩ =
      .ok (d, ⟨[], .ok eof, spanAfter q us, sc', nl⟩) := bind_ok rfl hrun
  have halike : State.Alike ⟨us, .ok eof, q, sc, nl⟩
      ⟨(Token.scan text).tokens, (Token.scan text).ending, q, sc, nl⟩ := by
    refine ⟨(congrArg Token.Scan.tokens hscan).symm, ?_, rfl, rfl⟩
    rw [heof]
    exact (congrArg Token.Scan.ending hscan).symm
  have hsame := formOf_alike .sequence halike
  rw [← expression, hexpression] at hsame
  generalize expression ⟨(Token.scan text).tokens, (Token.scan text).ending, q, sc, nl⟩ = r
    at hsame ⊢
  cases hsame with
  | @ok _ e _ t he ht =>
    obtain ⟨tokens, ending, q', sc'', nl'⟩ := t
    obtain ⟨htokens, hending, -, hloop⟩ := ht
    obtain rfl := List.map_eq_nil_iff.mp htokens.symm
    cases hloop
    cases ending with
    | error err => cases hending
    | ok eof' => exact ⟨e, eof', q', sc'', rfl, he.symm⟩

end Grammar

/-- The expression `d` of a file stands behind the events `before`. -/
def Reader.Meets (c : Reader) (es : List Grammar.External) (before : List Event) (d : Expr) :
    Prop :=
  ∃ pre root post inner, es.flatMap c.externalItems = pre ++ .expr root :: post ∧
    Expr.StandsIn c.tokens inner d root ∧
    before = pre.flatMap (Item.events c.tokens) ++ inner

theorem Reader.exists_meets (c : Reader) {es : List Grammar.External} {t : SymbolTable} {d : Expr}
    (h : .expr d ∈ (Program.ofExternals es t).nodes) : ∃ before, c.Meets es before d := by
  obtain ⟨root, hroot, hd⟩ := Program.exists_item c h
  obtain ⟨pre, post, hitems⟩ := List.append_of_mem hroot
  obtain ⟨inner, hinner⟩ := Expr.exists_standsIn c.tokens hd
  exact ⟨_, pre, root, post, inner, hitems, hinner, rfl⟩

theorem Grammar.Goes.stands_of_meets {c : Reader} {s s' : State} {es : List External}
    {before : List Event} {d : Expr} (h : Goes c.tokens s (es.flatMap c.externalItems) s')
    (hd : c.Meets es before d) : Stands c.tokens s.scopes before d := by
  obtain ⟨pre, root, post, inner, hitems, hinner, rfl⟩ := hd
  rw [hitems] at h
  exact h.stands hinner

namespace Program

/-- Every expression in the tree of a text encloses the expressions right inside it, and the text
under its span, scanned and parsed in the scopes that the text before it leads to, is read to its
end as the expression, places apart. -/
theorem spans_faithful {source : String} {p : Program} (h : parse source = .ok p) :
    ∃ es s, Grammar.externals (.start (Token.scan source)) = .ok (es, s) ∧
      p = .ofExternals es s.scopes.table ∧
      (∀ d, .expr d ∈ p.nodes →
        ∃ before, Reader.Meets ⟨(Token.scan source).tokens, p.symbols⟩ es before d) ∧
      ∀ before d, Reader.Meets ⟨(Token.scan source).tokens, p.symbols⟩ es before d →
        (∀ o ∈ d.children, d.span.Encloses o.span) ∧
        (∃ sc, Scopes.Runs .empty before sc) ∧
        ∃ text, d.span.snippet? source = some text ∧
          ∀ sc, Scopes.Runs .empty before sc → ∀ q nl, ∃ e eof q' sc',
            Grammar.expression ⟨(Token.scan text).tokens, (Token.scan text).ending, q, sc, nl⟩ =
              .ok (e, ⟨[], .ok eof, q', sc', nl⟩) ∧ e.erase = d.erase := by
  rw [parse] at h
  cases hexternals : Grammar.externals (.start (Token.scan source)) with
  | error e => simp [hexternals, bind, Except.bind] at h
  | ok r =>
    obtain ⟨es, s⟩ := r
    simp only [hexternals, bind, Except.bind, pure, Except.pure, Except.ok.injEq] at h
    subst h
    have hmoves := Grammar.externals_traces (Grammar.within_start source) hexternals
    have hgoes := hmoves.goes s.scopes.table (.refl _)
    refine ⟨es, s, rfl, rfl, fun d => Reader.exists_meets _, fun before d hd => ?_⟩
    obtain ⟨hencloses, us, sc₀, v, ⟨front, back, htokens⟩, hcovers, hruns, hback⟩ :=
      hgoes.stands_of_meets hd
    have hpragma : ∀ t ∈ us.head?, t.kind ≠ .pragma := by
      obtain ⟨t, us, rfl, ht, -⟩ := hback.begins
      simpa using ht
    obtain ⟨text, htext, hscan⟩ := Token.scan_snippet htokens.symm hcovers hpragma
    refine ⟨hencloses, ⟨sc₀, hruns⟩, text, htext, fun sc hsc q nl => ?_⟩
    exact hback.expression_eq hscan (hsc.names_unique hruns) q nl

/-- An array that no one declares, behind a function that no one declares: read by itself where
the function is known, it is the same binding. -/
theorem spans_faithful_undeclared :
    ∃ source p es s d before,
      source = "int f(int a) \x7b return (g(a) - b[2]) * 3; \x7d" ∧ parse source = .ok p ∧
      Grammar.externals (.start (Token.scan source)) = .ok (es, s) ∧ .expr d ∈ p.nodes ∧
      Reader.Meets ⟨(Token.scan source).tokens, p.symbols⟩ es before d ∧
      d.subscriptChain? = some (3, 1) ∧ (∀ o ∈ d.children, d.span.Encloses o.span) ∧
      d.span.snippet? source = some "b[2]" ∧ (∃ sc, Scopes.Runs .empty before sc) ∧
      ∀ sc, Scopes.Runs .empty before sc → ∀ q nl, ∃ e eof q' sc',
        Grammar.expression ⟨(Token.scan "b[2]").tokens, (Token.scan "b[2]").ending, q, sc, nl⟩ =
          .ok (e, ⟨[], .ok eof, q', sc', nl⟩) ∧ e.erase = d.erase := by
  obtain ⟨source, hsource⟩ : ∃ source,
      source = "int f(int a) \x7b return (g(a) - b[2]) * 3; \x7d" := ⟨_, rfl⟩
  have hrun : ((parse source).toOption.map fun p => (p.nodes.filterMap Node.expr?)[5]?.map fun d =>
      (d.subscriptChain?, d.span.snippet? source)) = some (some (some (3, 1), some "b[2]")) := by
    subst hsource
    decide +kernel
  obtain ⟨p, hp, hnodes⟩ := Option.map_eq_some_iff.mp hrun
  have hparse : parse source = .ok p := by
    cases h : parse source with
    | error e => simp [h, Except.toOption] at hp
    | ok q => exact congrArg _ (Option.some.inj (by simpa [h, Except.toOption] using hp))
  obtain ⟨d, hd, hfacts⟩ := Option.map_eq_some_iff.mp hnodes
  obtain ⟨hchain, hsnippet⟩ := Prod.mk.inj hfacts
  obtain ⟨n, hn, hnd⟩ := List.mem_filterMap.mp (List.mem_of_getElem? hd)
  have hmem : .expr d ∈ p.nodes := by
    cases n with
    | expr e => exact Option.some.inj hnd ▸ hn
    | declarator _ => cases hnd
  obtain ⟨es, s, hes, -, hmeets, hall⟩ := spans_faithful hparse
  obtain ⟨before, hbefore⟩ := hmeets d hmem
  obtain ⟨hencloses, hscopes, text, htext, hreads⟩ := hall before d hbefore
  cases htext.symm.trans hsnippet
  exact ⟨source, p, es, s, d, before, hsource, hparse, hes, hmem, hbefore, hchain, hencloses,
    hsnippet, hscopes, hreads⟩

end Program

end LoopLegality

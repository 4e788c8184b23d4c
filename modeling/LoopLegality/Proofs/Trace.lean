import LoopLegality.Proofs.ParserFrame
import LoopLegality.Proofs.Scoping

namespace LoopLegality

/-- What a walk through a tree meets: a block or a name that is declared, an expression, and a
loop before its header. -/
inductive Item where
  | event (e : Event)
  | expr (e : Expr)
  | loop (id : LoopId)

namespace Item

def events (ts : List Token) : Item → List Event
  | event e => [e]
  | expr e => e.events ts
  | loop _ => []

@[simp] def loops : List Item → List LoopId
  | [] => []
  | loop id :: is => id :: loops is
  | event _ :: is | expr _ :: is => loops is

@[simp] theorem loops_append (is js : List Item) : loops (is ++ js) = loops is ++ loops js := by
  induction is with
  | nil => rfl
  | cons i is ih => cases i <;> simp [ih]

@[simp] theorem loops_map_expr (es : List Expr) : loops (es.map .expr) = [] := by
  induction es with
  | nil => rfl
  | cons e es ih => simp [ih]

end Item

namespace Reader

/-- Dimensions come before the name is in scope, and the initializer after. -/
def declaratorItems (c : Reader) (unnamed : String) (d : Declarator) : List Item :=
  (d.dims.filterMap id).map .expr ++
    .event (.declare ((c.declared? d.symbol).getD unnamed) d.symbol) ::
      ((d.init.map Initializer.exprs).getD []).map .expr

def declarationItems (c : Reader) (ds : List Declarator) : List Item :=
  ds.flatMap (c.declaratorItems "")

def parameterItems (c : Reader) : Nat → List Declarator → List Item
  | _, [] => []
  | k, d :: ds => c.declaratorItems s!"<param{k}>" d ++ c.parameterItems (k + 1) ds

def forInitItems (c : Reader) : Option ForInit → List Item
  | none | some (.null _) => []
  | some (.decl d) => c.declarationItems d.declarators
  | some (.expr e _) => [.expr e]

def forHeaderItems (c : Reader) (h : ForHeader) : List Item :=
  c.forInitItems h.init ++ h.cond.toList.map .expr ++ h.incr.toList.map .expr

mutual

@[simp] def stmtItems (c : Reader) : Stmt → List Item
  | .decl ds _ => c.declarationItems ds
  | .expr e _ | .caseLabel e _ => [.expr e]
  | .forLoop h b _ =>
    .loop h.id :: .event .enter :: (c.forHeaderItems h ++ c.stmtItems b ++ [.event .leave])
  | .compound ss _ => .event .enter :: (c.blockItems ss ++ [.event .leave])
  | .branch e y none _ => .expr e :: c.stmtItems y
  | .branch e y (some n) _ => .expr e :: (c.stmtItems y ++ c.stmtItems n)
  | .ret e _ => e.toList.map .expr
  | .whileLoop e b _ | .switch e b _ => .expr e :: c.stmtItems b
  | .doWhile b e _ => c.stmtItems b ++ [.expr e]
  | .label _ b _ => c.stmtItems b
  | .null _ | .defaultLabel _ | .break _ | .continue _ | .goto _ _ => []

@[simp] def blockItems (c : Reader) : List Stmt → List Item
  | [] => []
  | s :: ss => c.stmtItems s ++ c.blockItems ss

end

def functionItems (c : Reader) (name : String) (x : Symbol) (params : List Declarator)
    (body : Option Stmt) : List Item :=
  .event (.function name x) :: .event .enter ::
    (c.parameterItems 0 params ++ c.blockItems body.toList ++ [.event .leave])

def externalItems (c : Reader) : Grammar.External → List Item
  | .function f => c.functionItems f.name f.symbol f.params (some f.body)
  | .prototype p => c.functionItems p.name p.symbol p.params none
  | .global d => c.declarationItems d.declarators
  | .nothing => []

theorem blockItems_eq_flatMap (c : Reader) (ss : List Stmt) :
    c.blockItems ss = ss.flatMap c.stmtItems := by
  induction ss with
  | nil => simp
  | cons s ss ih => simp [ih]

end Reader

namespace Grammar

section Moves

variable {α β : Type} {all : List Token} {s s' s'' : State} {i : Item} {is js : List Item}

/-- What happens at one item. -/
inductive Does (all : List Token) : State → Item → State → Prop
  | event {s : State} {e : Event} {sc : Scopes} : Scopes.Step s.scopes [e] sc →
      Does all s (.event e) { s with scopes := sc }
  | expr {s s' : State} {e : Expr} (f : Form) : Within all s → formOf f s = .ok (e, s') →
      Does all s (.expr e) s'
  | loop (s : State) : Does all s (.loop s.nextLoop) { s with nextLoop := s.nextLoop + 1 }

/-- The items come one after the other, with tokens skipped between them. -/
inductive Goes (all : List Token) : State → List Item → State → Prop
  | nil {s s' : State} : Skips s s' → Goes all s [] s'
  | cons {s s₁ s₂ s' : State} {i : Item} {is : List Item} : Skips s s₁ → Does all s₁ i s₂ →
      Goes all s₂ is s' → Goes all s (i :: is) s'

theorem Goes.skip (h : Skips s s') (h' : Goes all s' is s'') : Goes all s is s'' := by
  cases h' with
  | nil hskip => exact .nil (h.trans hskip)
  | cons hskip hdoes hgoes => exact .cons (h.trans hskip) hdoes hgoes

theorem Goes.trans (h : Goes all s is s') (h' : Goes all s' js s'') :
    Goes all s (is ++ js) s'' := by
  induction h with
  | nil hskip => exact h'.skip hskip
  | cons hskip hdoes _ ih => exact .cons hskip hdoes (ih h')

theorem Does.goes (h : Does all s i s') : Goes all s [i] s' := .cons (.refl s) h (.nil (.refl s'))

/-- The way from one state to another. As with events, the items depend on a table that extends
the one at the end. -/
structure Moves (all : List Token) (s : State) (is : SymbolTable → List Item) (s' : State) :
    Prop where
  within : Within all s'
  grows : s.scopes.table.Extends s'.scopes.table
  goes : ∀ table, s'.scopes.table.Extends table → Goes all s (is table) s'

def noItems : SymbolTable → List Item := fun _ => []

namespace Moves

variable {is js : SymbolTable → List Item}

theorem congr (h : Moves all s is s') (hjs : ∀ table, is table = js table) : Moves all s js s' :=
  funext hjs ▸ h

theorem trans (h : Moves all s is s') (h' : Moves all s' js s'') :
    Moves all s (fun table => is table ++ js table) s'' where
  within := h'.within
  grows := h.grows.trans h'.grows
  goes table htable := (h.goes table (h'.grows.trans htable)).trans (h'.goes table htable)

theorem skip (w : Within all s) (h : Skips s s') : Moves all s noItems s' where
  within := ⟨w.ordered, h.tokens.trans w.tokens, fun eof heof => w.ending eof (h.ending ▸ heof)⟩
  grows := h.scopes ▸ .refl _
  goes _ _ := .nil h

theorem refl (w : Within all s) : Moves all s noItems s := skip w (.refl s)

theorem step {e : Event} {sc : Scopes} (w : Within all s) (h : Scopes.Step s.scopes [e] sc) :
    Moves all s (fun _ => [.event e]) { s with scopes := sc } :=
  ⟨⟨w.ordered, w.tokens, w.ending⟩, h.extends, fun _ _ => (Does.event h).goes⟩

theorem thenSkip (h : Moves all s is s') (h' : Moves all s' noItems s'') : Moves all s is s'' :=
  (h.trans h').congr fun _ => List.append_nil _

theorem afterSkip (h : Moves all s noItems s') (h' : Moves all s' js s'') : Moves all s js s'' :=
  h.trans h'

end Moves

/-- A parser that, on success, has met the items of what it yields. -/
def Traces (all : List Token) (p : Parser α) (is : α → SymbolTable → List Item) : Prop :=
  ∀ ⦃s a s'⦄, Within all s → p s = .ok (a, s') → Moves all s (is a) s'

variable {r : β × State}

theorem Traces.bind {p : Parser α} {is : α → SymbolTable → List Item} {f : α → Parser β}
    (hp : Traces all p is) (w : Within all s) (h : (p >>= f) s = .ok r) :
    ∃ a s₁, Moves all s (is a) s₁ ∧ f a s₁ = .ok r := by
  obtain ⟨a, s₁, ha, h⟩ := bind_inv h
  exact ⟨a, s₁, hp w ha, h⟩

theorem Keeps.skip {p : Parser α} {f : α → Parser β} (hp : Keeps Skips p) (w : Within all s)
    (h : (p >>= f) s = .ok r) : ∃ a s₁, Moves all s noItems s₁ ∧ f a s₁ = .ok r := by
  obtain ⟨a, s₁, ha, h⟩ := bind_inv h
  exact ⟨a, s₁, .skip w (hp ha), h⟩

theorem formOf_traces (f : Form) : Traces all (formOf f) fun e _ => [.expr e] := by
  intro s e s' w h
  obtain ⟨ts, hts⟩ := formOf_walks f w h
  exact ⟨hts.within, (hts.scopes _ (.refl _)).extends, fun _ _ => (Does.expr f w h).goes⟩

theorem repeatStep_traces {step : Parser (Option α)} {is : α → SymbolTable → List Item}
    (hstep : Traces all step fun r table => r.elim [] (is · table)) (n : Nat) :
    Traces all (repeatStep step n) fun as table => as.flatMap (is · table) := by
  induction n with
  | zero =>
    intro s as s' w h
    cases h
    exact .refl w
  | succ n ih =>
    intro s as s' w h
    obtain ⟨r, s₁, hr, h⟩ := hstep.bind w h
    cases r with
    | none =>
      cases h
      exact hr
    | some a =>
      obtain ⟨bs, s₂, hbs, h⟩ := ih.bind hr.within h
      cases h
      exact hr.trans hbs

theorem many_traces {step : Parser (Option α)} {is : α → SymbolTable → List Item}
    (hstep : Traces all step fun r table => r.elim [] (is · table)) :
    Traces all (many step) fun as table => as.flatMap (is · table) := by
  intro s as s' w h
  obtain ⟨n, h⟩ := remaining_bind h
  exact repeatStep_traces hstep _ w h

theorem commaItem_traces {item : Parser α} {is : α → SymbolTable → List Item}
    (hitem : Traces all item is) :
    Traces all (commaItem item) fun r table => r.elim [] (is · table) := by
  intro s r s' w h
  obtain ⟨b, s₁, hb, h⟩ := (keeps_accept _).skip w h
  cases b with
  | true =>
    obtain ⟨a, s₂, ha, h⟩ := hitem.bind hb.within h
    cases h
    exact hb.afterSkip ha
  | false =>
    cases h
    exact hb

theorem commaSeparated_traces {item : Parser α} {is : α → SymbolTable → List Item}
    (hitem : Traces all item is) :
    Traces all (commaSeparated item) fun as table => as.flatMap (is · table) := by
  intro s as s' w h
  obtain ⟨a, s₁, ha, h⟩ := hitem.bind w h
  obtain ⟨bs, s₂, hbs, h⟩ := (many_traces (commaItem_traces hitem)).bind ha.within h
  cases h
  exact ha.trans hbs

end Moves

section Declarations

variable {all : List Token} {s s' : State}

theorem dimension_traces : Traces all dimension fun r _ =>
    r.elim [] fun d => d.toList.map .expr := by
  intro s r s' w h
  obtain ⟨b, s₁, hopen, h⟩ := (keeps_accept _).skip w h
  cases b with
  | false =>
    cases h
    exact hopen
  | true =>
    obtain ⟨b, s₂, hclose, h⟩ := (keeps_accept _).skip hopen.within h
    cases b with
    | true =>
      cases h
      exact hopen.thenSkip hclose
    | false =>
      obtain ⟨e, s₃, he, h⟩ := (formOf_traces .assignment).bind hclose.within h
      obtain ⟨_, s₄, hend, h⟩ := (keeps_expect _ _).skip he.within h
      cases h
      exact (hopen.thenSkip hclose).afterSkip (he.thenSkip hend)

theorem dimensions_traces : Traces all dimensions fun ds _ => (ds.filterMap id).map .expr := by
  intro s ds s' w h
  refine (many_traces dimension_traces w h).congr fun _ => ?_
  clear h
  induction ds with
  | nil => rfl
  | cons d ds ih => cases d <;> simp [ih]

theorem initializerItem_traces {item : Parser Initializer}
    (hitem : Traces all item fun i _ => i.exprs.map .expr) (more : Bool) :
    Traces all (initializerItem item more) fun r _ => r.elim [] fun p => p.2.exprs.map .expr := by
  intro s r s' w h
  cases more with
  | false =>
    cases h
    exact .refl w
  | true =>
    obtain ⟨t, -, ⟨-, h⟩ | ⟨-, h⟩⟩ := check_bind h
    · cases h
      exact .refl w
    · obtain ⟨i, s₁, hi, h⟩ := hitem.bind w h
      obtain ⟨b, s₂, hcomma, h⟩ := (keeps_accept _).skip hi.within h
      cases h
      exact hi.thenSkip hcomma

theorem initializerItems_traces {item : Parser Initializer}
    (hitem : Traces all item fun i _ => i.exprs.map .expr) (n : Nat) (more : Bool) :
    Traces all (initializerItems item n more) fun is _ =>
      (Initializer.exprsOf is).map .expr := by
  induction n generalizing more with
  | zero =>
    intro s is s' w h
    cases h
    exact .refl w
  | succ n ih =>
    intro s is s' w h
    obtain ⟨r, s₁, hr, h⟩ := (initializerItem_traces hitem more).bind w h
    cases r with
    | none =>
      cases h
      exact hr
    | some p =>
      obtain ⟨rest, s₂, hrest, h⟩ := (ih p.1).bind hr.within h
      cases h
      exact (hr.trans hrest).congr fun _ => by simp [Initializer.exprsOf]

theorem initializerWithin_traces (n : Nat) :
    Traces all (initializerWithin n) fun i _ => i.exprs.map .expr := by
  induction n with
  | zero => exact fun _ _ _ _ h => absurd h fail_inv
  | succ n ih =>
    intro s i s' w h
    obtain ⟨b, s₁, hopen, h⟩ := (keeps_accept _).skip w h
    cases b with
    | true =>
      obtain ⟨m, h⟩ := remaining_bind h
      obtain ⟨items, s₂, hitems, h⟩ := (initializerItems_traces ih _ _).bind hopen.within h
      obtain ⟨_, s₃, hclose, h⟩ := (keeps_expect _ _).skip hitems.within h
      cases h
      exact (hopen.afterSkip (hitems.thenSkip hclose)).congr fun _ => by simp [Initializer.exprs]
    | false =>
      obtain ⟨e, s₂, he, h⟩ := (formOf_traces .assignment).bind hopen.within h
      cases h
      exact (hopen.afterSkip he).congr fun _ => by simp [Initializer.exprs]

theorem optionalInitializer_traces : Traces all optionalInitializer fun r _ =>
    ((r.map Initializer.exprs).getD []).map .expr := by
  intro s r s' w h
  obtain ⟨b, s₁, hassign, h⟩ := (keeps_accept _).skip w h
  cases b with
  | true =>
    obtain ⟨i, s₂, hi, h⟩ := bind_inv h
    obtain ⟨n, hi⟩ := remaining_bind hi
    cases h
    exact hassign.afterSkip (initializerWithin_traces _ hassign.within hi)
  | false =>
    cases h
    exact hassign

theorem declared?_declare {sc : Scopes} {table : SymbolTable} {name : String} {span : Span}
    {kind : Symbol.Kind} (h : (sc.declare name kind span).2.table.Extends table) :
    Reader.declared? ⟨all, table⟩ (sc.declare name kind span).1 = Token.nameUnder? span all := by
  have hinfo := sc.table.info?_declare ⟨name, kind, span, sc.depth⟩ sc.table.size
  rw [if_pos rfl, ← Scopes.declare_table] at hinfo
  obtain ⟨i, hi, hspan⟩ := h _ _ hinfo
  rw [Reader.declared?, Scopes.declare_fst, hi, Option.bind_some, hspan]

theorem moves_declare {name unnamed : String} {span : Span} {kind : Symbol.Kind}
    (w : Within all s) (hkind : kind ≠ .function)
    (hname : (Token.nameUnder? span all).getD unnamed = name) :
    Moves all s
      (fun table => [.event (.declare
        ((Reader.declared? ⟨all, table⟩ (s.scopes.declare name kind span).1).getD unnamed)
        (s.scopes.declare name kind span).1)])
      { s with scopes := (s.scopes.declare name kind span).2 } := by
  have hstep := Scopes.Step.declare s.scopes name span hkind
  refine ⟨⟨w.ordered, w.tokens, w.ending⟩, hstep.extends, fun table htable => ?_⟩
  rw [declared?_declare htable, hname]
  exact (Does.event hstep).goes

theorem declaratorAfter_moves {name unnamed : String} {span : Span} {pointer : Bool}
    {storage : Storage} {d : Declarator} (hname : (Token.nameUnder? span all).getD unnamed = name)
    (w : Within all s) (h : declaratorAfter name span pointer storage s = .ok (d, s')) :
    Moves all s (fun table => Reader.declaratorItems ⟨all, table⟩ unnamed d) s' := by
  obtain ⟨dims, s₁, hdims, h⟩ := dimensions_traces.bind w h
  have h := bindName_bind h
  have hdeclare := moves_declare hdims.within (declaredKind_ne pointer dims.length) hname
  obtain ⟨init, s₂, hinit, h⟩ := optionalInitializer_traces.bind hdeclare.within h
  cases spanFrom_bind h
  exact hdims.trans (hdeclare.trans hinit)

theorem parameterAfter_moves {name unnamed : String} {span : Span} {pointer : Bool}
    {d : Declarator} (hname : (Token.nameUnder? span all).getD unnamed = name)
    (w : Within all s) (h : parameterAfter name span pointer s = .ok (d, s')) :
    Moves all s (fun table => Reader.declaratorItems ⟨all, table⟩ unnamed d) s' := by
  obtain ⟨dims, s₁, hdims, h⟩ := dimensions_traces.bind w h
  have h := bindName_bind h
  have hdeclare := moves_declare hdims.within (declaredKind_ne pointer dims.length) hname
  cases spanFrom_bind h
  exact hdims.trans hdeclare

theorem expectName_moves {β : Type} {what : String} {f : String → Parser β} {r : β × State}
    {t : Token} (h : (expectName what >>= f) s = .ok r) (w : Within all s) (ht : Heads s t) :
    ∃ s₁, Moves all s noItems s₁ ∧ (Token.nameUnder? t.span all).getD "" = t.lexeme ∧
      f t.lexeme s₁ = .ok r := by
  obtain ⟨name, s₁, hname, h⟩ := bind_inv h
  have hmoves := Moves.skip w (keeps_expectName what hname)
  rw [← bind_pure (expectName what)] at hname
  obtain ⟨u, s₂, hu, hpass, hname⟩ := expectName_bind hname w
  obtain rfl := ht.unique hpass.heads
  cases hname
  exact ⟨_, hmoves, nameUnder?_passed "" hpass hu, h⟩

theorem declarator_traces (storage : Storage) : Traces all (declarator storage) fun d table =>
    Reader.declaratorItems ⟨all, table⟩ "" d := by
  intro s d s' w h
  obtain ⟨pointer, s₁, hpointer, h⟩ := keeps_pointerMark.skip w h
  obtain ⟨t, ht, h⟩ := currentSpan_bind h
  obtain ⟨s₂, hmove, hname, h⟩ := expectName_moves h hpointer.within ht
  exact (hpointer.thenSkip hmove).afterSkip (declaratorAfter_moves hname hmove.within h)

theorem declarators_traces (storage : Storage) : Traces all (declarators storage) fun ds table =>
    Reader.declarationItems ⟨all, table⟩ ds := by
  intro s ds s' w h
  obtain ⟨t, -, ⟨-, h⟩ | ⟨-, h⟩⟩ := check_bind h
  · cases h
    exact .refl w
  · exact commaSeparated_traces (declarator_traces storage) w h

theorem declaration_traces : Traces all declaration fun ds table =>
    Reader.declarationItems ⟨all, table⟩ ds := by
  intro s ds s' w h
  obtain ⟨words, s₁, hwords, h⟩ := keeps_specifiers.skip w h
  obtain ⟨ds, s₂, hds, h⟩ := (declarators_traces _).bind hwords.within h
  obtain ⟨_, s₃, hend, h⟩ := (keeps_expect _ _).skip hds.within h
  cases h
  exact hwords.afterSkip (hds.thenSkip hend)

end Declarations

section Statements

variable {all : List Token} {s s' : State}

theorem withinBlock_moves {α : Type} {p : Parser α} {a : α} (w : Within all s)
    (h : withinBlock p s = .ok (a, s')) :
    ∃ s₁ s₂, Moves all s (fun _ => [.event .enter]) s₁ ∧ p s₁ = .ok (a, s₂) ∧
      (Within all s₂ → Moves all s₂ (fun _ => [.event .leave]) s') := by
  obtain ⟨a, s₂, ha, h⟩ := bind_inv (modifyScopes_bind h)
  cases modifyScopes_bind h
  exact ⟨_, s₂, .step w (.enter s.scopes), ha, fun w₂ => .step w₂ (.leave s₂.scopes)⟩

theorem withinBlock_traces {α : Type} {p : Parser α} {is : α → SymbolTable → List Item}
    (hp : Traces all p is) :
    Traces all (withinBlock p) fun a table =>
      .event .enter :: (is a table ++ [.event .leave]) := by
  intro s a s' w h
  obtain ⟨s₁, s₂, henter, ha, hleave⟩ := withinBlock_moves w h
  have hmoves := hp henter.within ha
  exact henter.trans (hmoves.trans (hleave hmoves.within))

theorem expressionUnless_traces (stop : Punct) : Traces all (expressionUnless stop) fun r _ =>
    r.toList.map .expr := by
  intro s r s' w h
  obtain ⟨t, -, ⟨-, h⟩ | ⟨-, h⟩⟩ := check_bind h
  · cases h
    exact .refl w
  · obtain ⟨e, s₁, he, h⟩ := (formOf_traces .sequence).bind w h
    cases h
    exact he

theorem parenthesizedCondition_traces :
    Traces all parenthesizedCondition fun e _ => [.expr e] := by
  intro s e s' w h
  obtain ⟨_, s₁, hopen, h⟩ := (keeps_expect _ _).skip w h
  obtain ⟨e, s₂, he, h⟩ := (formOf_traces .sequence).bind hopen.within h
  obtain ⟨_, s₃, hclose, h⟩ := (keeps_expect _ _).skip he.within h
  cases h
  exact hopen.afterSkip (he.thenSkip hclose)

theorem forInit_traces : Traces all forInit fun r table =>
    Reader.forInitItems ⟨all, table⟩ r := by
  intro s r s' w h
  obtain ⟨t, -, h⟩ := currentSpan_bind h
  obtain ⟨b, s₁, hend, h⟩ := (keeps_accept _).skip w h
  cases b with
  | true =>
    cases h
    exact hend
  | false =>
    obtain ⟨-, -, -, h⟩ | h := atType_bind h
    · obtain ⟨ds, s₂, hds, h⟩ := declaration_traces.bind hend.within h
      cases spanFrom_bind h
      exact hend.afterSkip hds
    · obtain ⟨e, s₂, he, h⟩ := (formOf_traces .sequence).bind hend.within h
      obtain ⟨_, s₃, hsemicolon, h⟩ := (keeps_expect _ _).skip he.within h
      cases spanFrom_bind h
      exact hend.afterSkip (he.thenSkip hsemicolon)

theorem forHeader_moves {id : LoopId} {header : ForHeader} (w : Within all s)
    (h : forHeader id s = .ok (header, s')) : header.id = id ∧
      Moves all s (fun table => Reader.forHeaderItems ⟨all, table⟩ header) s' := by
  obtain ⟨init, s₁, hinit, h⟩ := forInit_traces.bind w h
  obtain ⟨cond, s₂, hcond, h⟩ := (expressionUnless_traces _).bind hinit.within h
  obtain ⟨_, s₃, hend, h⟩ := (keeps_expect _ _).skip hcond.within h
  obtain ⟨incr, s₄, hincr, h⟩ := (expressionUnless_traces _).bind hend.within h
  obtain ⟨_, s₅, hclose, h⟩ := (keeps_expect _ _).skip hincr.within h
  cases h
  exact ⟨rfl, (((hinit.trans hcond).thenSkip hend).trans hincr).thenSkip hclose⟩

variable {nested : Parser Stmt}
  (hnested : Traces all nested fun b table => Reader.stmtItems ⟨all, table⟩ b) (site : Site)

include hnested

theorem compound_traces (pragmas : List String) :
    Traces all (compound nested pragmas) fun b table => Reader.stmtItems ⟨all, table⟩ b := by
  have hitem : Traces all (blockItem nested) fun r table =>
      r.elim [] (Reader.stmtItems ⟨all, table⟩ ·) := by
    intro s r s' w h
    obtain ⟨t, k, -, -, h⟩ := currentKind_bind h
    split at h
    · cases h
      exact .refl w
    · obtain ⟨b, s₁, hb, h⟩ := hnested.bind w h
      cases h
      exact hb
  intro s b s' w h
  obtain ⟨t, -, h⟩ := currentSpan_bind h
  obtain ⟨_, s₁, hopen, h⟩ := (keeps_expect _ _).skip w h
  obtain ⟨bs, s₂, hbs, h⟩ := (withinBlock_traces (many_traces hitem)).bind hopen.within h
  obtain ⟨_, s₃, hclose, h⟩ := (keeps_expect _ _).skip hbs.within h
  cases spanFrom_bind h
  exact (hopen.afterSkip (hbs.thenSkip hclose)).congr fun table => by
    simp [Reader.blockItems_eq_flatMap]

theorem forStatement_traces : Traces all (forStatement nested) fun f table =>
    Reader.stmtItems ⟨all, table⟩ (f site) := by
  intro s f s' w h
  obtain ⟨id, s₁, hid, h⟩ := bind_inv h
  cases hid
  have hnumber : Moves all s (fun _ => [.loop s.nextLoop])
      { s with nextLoop := s.nextLoop + 1 } :=
    ⟨⟨w.ordered, w.tokens, w.ending⟩, .refl _, fun _ _ => (Does.loop s).goes⟩
  obtain ⟨_, s₂, hfor, h⟩ := keeps_advance.skip hnumber.within h
  obtain ⟨_, s₃, hopen, h⟩ := (keeps_expect _ _).skip hfor.within h
  obtain ⟨s₄, s₅, henter, h, hleave⟩ := withinBlock_moves hopen.within h
  obtain ⟨header, s₆, hheader, h⟩ := bind_inv h
  obtain ⟨hid, hheader⟩ := forHeader_moves henter.within hheader
  obtain ⟨body, s₇, hbody, h⟩ := hnested.bind hheader.within h
  cases h
  have hblock := henter.trans ((hheader.trans hbody).trans (hleave hbody.within))
  exact (((hnumber.thenSkip hfor).thenSkip hopen).trans hblock).congr fun _ => by simp [hid]

theorem ifStatement_traces : Traces all (ifStatement nested) fun f table =>
    Reader.stmtItems ⟨all, table⟩ (f site) := by
  intro s f s' w h
  obtain ⟨_, s₁, hif, h⟩ := keeps_advance.skip w h
  obtain ⟨cond, s₂, hcond, h⟩ := parenthesizedCondition_traces.bind hif.within h
  obtain ⟨yes, s₃, hyes, h⟩ := hnested.bind hcond.within h
  have hall := hif.afterSkip (hcond.trans hyes)
  obtain ⟨no, s₄, hno, h⟩ := bind_inv h
  cases h
  obtain ⟨b, s₅, helse, hno⟩ := (keeps_accept _).skip hyes.within hno
  cases b with
  | true =>
    obtain ⟨no, s₆, hbody, hno⟩ := hnested.bind helse.within hno
    cases hno
    exact ((hall.thenSkip helse).trans hbody).congr fun _ => by simp
  | false =>
    cases hno
    exact (hall.thenSkip helse).congr fun _ => by simp

theorem doWhileStatement_traces : Traces all (doWhileStatement nested) fun f table =>
    Reader.stmtItems ⟨all, table⟩ (f site) := by
  intro s f s' w h
  obtain ⟨_, s₁, hdo, h⟩ := keeps_advance.skip w h
  obtain ⟨body, s₂, hbody, h⟩ := hnested.bind hdo.within h
  obtain ⟨_, s₃, hwhile, h⟩ := (keeps_expect _ _).skip hbody.within h
  obtain ⟨cond, s₄, hcond, h⟩ := parenthesizedCondition_traces.bind hwhile.within h
  obtain ⟨_, s₅, hend, h⟩ := (keeps_expect _ _).skip hcond.within h
  cases h
  have hall := ((hdo.afterSkip hbody).thenSkip hwhile).trans (hcond.thenSkip hend)
  exact hall.congr fun _ => by simp

omit hnested in
theorem declarationOrExpression_traces : Traces all declarationOrExpression fun f table =>
    Reader.stmtItems ⟨all, table⟩ (f site) := by
  intro s f s' w h
  obtain ⟨-, -, -, h⟩ | h := atType_bind h
  · obtain ⟨ds, s₁, hds, h⟩ := declaration_traces.bind w h
    cases h
    exact hds.congr fun _ => by simp
  · obtain ⟨e, s₁, he, h⟩ := (formOf_traces .sequence).bind w h
    obtain ⟨_, s₂, hend, h⟩ := (keeps_expect _ _).skip he.within h
    cases h
    exact (he.thenSkip hend).congr fun _ => by simp

theorem labelOrOther_traces : Traces all (labelOrOther nested) fun f table =>
    Reader.stmtItems ⟨all, table⟩ (f site) := by
  intro s f s' w h
  obtain ⟨t, -, h⟩ := current_bind h
  obtain ⟨v, -, h⟩ := peek_bind h
  by_cases hcolon : v.kind = .punct .colon
  · simp only [if_pos hcolon] at h
    obtain ⟨_, s₁, hlabel, h⟩ := keeps_advance.skip w h
    obtain ⟨_, s₂, hmark, h⟩ := keeps_advance.skip hlabel.within h
    obtain ⟨body, s₃, hbody, h⟩ := hnested.bind hmark.within h
    cases h
    exact ((hlabel.thenSkip hmark).afterSkip hbody).congr fun _ => by simp
  · simp only [if_neg hcolon] at h
    exact declarationOrExpression_traces site w h

theorem simpleStatement_traces : Traces all (simpleStatement nested) fun f table =>
    Reader.stmtItems ⟨all, table⟩ (f site) := by
  intro s f s' w h
  obtain ⟨t, k, -, -, h⟩ := currentKind_bind h
  -- Three statements are a word and a mark behind it.
  have hword {p : Punct} {place : String} {g : Site → Stmt}
      (h : (do advance; expectPunct p place; return g) s = .ok (f, s'))
      (hg : ∀ table, Reader.stmtItems ⟨all, table⟩ (g site) = []) :
      Moves all s (fun table => Reader.stmtItems ⟨all, table⟩ (f site)) s' := by
    obtain ⟨_, s₁, hskip, h⟩ := keeps_advance.skip w h
    obtain ⟨_, s₂, hend, h⟩ := (keeps_expect _ _).skip hskip.within h
    cases h
    exact (hskip.thenSkip hend).congr fun table => (hg table).symm
  -- Two are a word, a condition and a statement.
  have hcontrolled {g : Expr → Stmt → Site → Stmt}
      (h : (do advance; let cond ← parenthesizedCondition; return g cond (← nested)) s =
        .ok (f, s'))
      (hg : ∀ table cond body, Reader.stmtItems ⟨all, table⟩ (g cond body site) =
        .expr cond :: Reader.stmtItems ⟨all, table⟩ body) :
      Moves all s (fun table => Reader.stmtItems ⟨all, table⟩ (f site)) s' := by
    obtain ⟨_, s₁, hskip, h⟩ := keeps_advance.skip w h
    obtain ⟨cond, s₂, hcond, h⟩ := parenthesizedCondition_traces.bind hskip.within h
    obtain ⟨body, s₃, hbody, h⟩ := hnested.bind hcond.within h
    cases h
    exact (hskip.afterSkip (hcond.trans hbody)).congr fun table => (hg table cond body).symm
  split at h
  · obtain ⟨_, s₁, hskip, h⟩ := keeps_advance.skip w h
    cases h
    exact hskip.congr fun _ => by simp [noItems]
  · exact forStatement_traces hnested site w h
  · exact ifStatement_traces hnested site w h
  · exact hcontrolled h fun _ _ _ => by simp
  · exact doWhileStatement_traces hnested site w h
  · exact hcontrolled h fun _ _ _ => by simp
  · obtain ⟨_, s₁, hskip, h⟩ := keeps_advance.skip w h
    obtain ⟨value, s₂, hvalue, h⟩ := (formOf_traces .conditional).bind hskip.within h
    obtain ⟨_, s₃, hend, h⟩ := (keeps_expect _ _).skip hvalue.within h
    cases h
    exact (hskip.afterSkip (hvalue.thenSkip hend)).congr fun _ => by simp
  · exact hword h fun _ => by simp
  · exact hword h fun _ => by simp
  · exact hword h fun _ => by simp
  · obtain ⟨_, s₁, hskip, h⟩ := keeps_advance.skip w h
    obtain ⟨value, s₂, hvalue, h⟩ := (expressionUnless_traces _).bind hskip.within h
    obtain ⟨_, s₃, hend, h⟩ := (keeps_expect _ _).skip hvalue.within h
    cases h
    exact (hskip.afterSkip (hvalue.thenSkip hend)).congr fun _ => by simp
  · obtain ⟨_, s₁, hskip, h⟩ := keeps_advance.skip w h
    obtain ⟨_, s₂, hname, h⟩ := (keeps_expectName _).skip hskip.within h
    obtain ⟨_, s₃, hend, h⟩ := (keeps_expect _ _).skip hname.within h
    cases h
    exact ((hskip.thenSkip hname).thenSkip hend).congr fun _ => by simp [noItems]
  · exact labelOrOther_traces hnested site w h
  · exact declarationOrExpression_traces site w h

theorem statementOf_traces : Traces all (statementOf nested) fun b table =>
    Reader.stmtItems ⟨all, table⟩ b := by
  intro s b s' w h
  obtain ⟨pragmas, s₁, hpragmas, h⟩ := (keeps_pragmaLine.many).skip w h
  obtain ⟨t, -, h⟩ := currentSpan_bind h
  obtain ⟨u, -, ⟨-, h⟩ | ⟨-, h⟩⟩ := check_bind h
  · exact hpragmas.afterSkip (compound_traces hnested pragmas hpragmas.within h)
  · obtain ⟨f, s₂, hf, h⟩ := bind_inv h
    cases spanFrom_bind h
    exact hpragmas.afterSkip (simpleStatement_traces hnested _ hpragmas.within hf)

omit hnested

theorem statementWithin_traces (n : Nat) : Traces all (statementWithin n) fun b table =>
    Reader.stmtItems ⟨all, table⟩ b := by
  induction n with
  | zero => exact fun _ _ _ _ h => absurd h fail_inv
  | succ n ih => exact statementOf_traces ih

theorem statement_traces : Traces all statement fun b table =>
    Reader.stmtItems ⟨all, table⟩ b := by
  intro s b s' w h
  obtain ⟨n, h⟩ := remaining_bind h
  exact statementWithin_traces _ w h

end Statements

section Externals

variable {all : List Token} {s s' : State}

theorem parameter_traces (position : Nat) : Traces all (parameter position) fun d table =>
    Reader.declaratorItems ⟨all, table⟩ s!"<param{position}>" d := by
  intro s d s' w h
  obtain ⟨-, -, -, h⟩ | h := atType_bind h
  · obtain ⟨words, s₁, hwords, h⟩ := keeps_specifiers.skip w h
    obtain ⟨pointer, s₂, hpointer, h⟩ := keeps_pointerMark.skip hwords.within h
    obtain ⟨t, ht, h⟩ := currentSpan_bind h
    have hpre := hwords.thenSkip hpointer
    obtain ⟨name, s₃, hname, h⟩ := bind_inv h
    obtain ⟨u, hu, ⟨hk, hname⟩ | ⟨hk, hname⟩⟩ := check_bind hname
    · obtain rfl := ht.unique hu
      have hskip := Moves.skip hpre.within (keeps_lexemeAndAdvance hname)
      obtain ⟨rfl, hpass⟩ := lexemeAndAdvance_inv hname hpre.within ht (by simp [hk])
      exact (hpre.thenSkip hskip).afterSkip
        (parameterAfter_moves (nameUnder?_passed _ hpass hk) hpass.within h)
    · obtain rfl := ht.unique hu
      cases hname
      exact hpre.afterSkip (parameterAfter_moves
        (by rw [ht.nameUnder?_eq_none hpre.within hk, Option.getD_none]) hpre.within h)
  · exact absurd h fail_inv

theorem parametersFrom_traces (n position : Nat) :
    Traces all (parametersFrom n position) fun ds table =>
      Reader.parameterItems ⟨all, table⟩ position ds := by
  induction n generalizing position with
  | zero =>
    intro s ds s' w h
    cases h
    exact .refl w
  | succ n ih =>
    intro s ds s' w h
    obtain ⟨d, s₁, hd, h⟩ := (parameter_traces position).bind w h
    obtain ⟨b, s₂, hcomma, h⟩ := (keeps_accept _).skip hd.within h
    cases b with
    | true =>
      obtain ⟨ds, s₃, hds, h⟩ := (ih (position + 1)).bind hcomma.within h
      cases h
      exact (hd.thenSkip hcomma).trans hds
    | false =>
      cases h
      exact (hd.thenSkip hcomma).congr fun _ => by simp [Reader.parameterItems]

theorem parameters_traces : Traces all parameters fun ds table =>
    Reader.parameterItems ⟨all, table⟩ 0 ds := by
  intro s ds s' w h
  have hfrom (h : (do parametersFrom ((← remaining) + 1) 0) s = .ok (ds, s')) :
      Moves all s (fun table => Reader.parameterItems ⟨all, table⟩ 0 ds) s' := by
    obtain ⟨n, h⟩ := remaining_bind h
    exact parametersFrom_traces _ _ w h
  obtain ⟨t, -, ⟨-, h⟩ | ⟨-, h⟩⟩ := check_bind h
  · cases h
    exact .refl w
  · obtain ⟨u, -, ⟨-, h⟩ | ⟨-, h⟩⟩ := check_bind h
    · obtain ⟨v, -, h⟩ := peek_bind h
      split at h
      · obtain ⟨_, s₁, hskip, h⟩ := keeps_advance.skip w h
        cases h
        exact hskip
      · exact hfrom h
    · exact hfrom h

theorem functionSymbol_moves {name : String} {span : Span} {x : Symbol} (w : Within all s)
    (h : functionSymbol name span s = .ok (x, s')) :
    Moves all s (fun _ => [.event (.function name x)]) s' := by
  have h := scopes_bind h
  have hnew (hne : ∀ y, s.scopes.lookup? name = some y → s.scopes.table.kind? y ≠ some .function)
      (h : bindName (·.declare name .function span) s = .ok (x, s')) :
      Moves all s (fun _ => [.event (.function name x)]) s' := by
    cases h
    exact .step w (.function span hne)
  cases hlookup : s.scopes.lookup? name with
  | none =>
    rw [hlookup] at h
    exact hnew (by simp [hlookup]) h
  | some y =>
    rw [hlookup] at h
    by_cases hkind : s.scopes.table.kind? y = some .function
    · simp only [if_pos hkind] at h
      cases h
      exact .step w (.again hlookup hkind)
    · simp only [if_neg hkind] at h
      exact hnew (by simpa [hlookup] using hkind) h

theorem parametersAndBody_traces : Traces all parametersAndBody fun p table =>
    .event .enter :: (Reader.parameterItems ⟨all, table⟩ 0 p.1 ++
      Reader.blockItems ⟨all, table⟩ p.2.toList ++ [.event .leave]) := by
  refine withinBlock_traces ?_
  intro s p s' w h
  obtain ⟨params, s₁, hparams, h⟩ := parameters_traces.bind w h
  obtain ⟨_, s₂, hclose, h⟩ := (keeps_expect _ _).skip hparams.within h
  obtain ⟨u, -, ⟨-, h⟩ | ⟨-, h⟩⟩ := check_bind h
  · obtain ⟨body, s₃, hbody, h⟩ := (compound_traces statement_traces []).bind hclose.within h
    cases h
    exact ((hparams.thenSkip hclose).trans hbody).congr fun _ => by simp
  · cases h
    exact (hparams.thenSkip hclose).congr fun _ => by simp

theorem functionAfter_traces (start span : Span) (name : String) :
    Traces all (functionAfter start name span) fun e table =>
      Reader.externalItems ⟨all, table⟩ e := by
  intro s e s' w h
  obtain ⟨x, s₁, hx, h⟩ := bind_inv h
  have hfunction := functionSymbol_moves w hx
  obtain ⟨_, s₂, hopen, h⟩ := keeps_advance.skip hfunction.within h
  obtain ⟨⟨params, body⟩, s₃, hblock, h⟩ := parametersAndBody_traces.bind hopen.within h
  have hall := (hfunction.thenSkip hopen).trans hblock
  cases body with
  | some body =>
    cases spanFrom_bind h
    exact hall
  | none =>
    obtain ⟨_, s₄, hend, h⟩ := (keeps_expect _ _).skip hblock.within h
    cases h
    exact hall.thenSkip hend

theorem globalAfter_moves {start span : Span} {name : String} {pointer : Bool} {storage : Storage}
    {e : External} (hname : (Token.nameUnder? span all).getD "" = name) (w : Within all s)
    (h : globalAfter start name span pointer storage s = .ok (e, s')) :
    Moves all s (fun table => Reader.externalItems ⟨all, table⟩ e) s' := by
  obtain ⟨first, s₁, hfirst, h⟩ := bind_inv h
  have hfirst := declaratorAfter_moves hname w hfirst
  obtain ⟨rest, s₂, hrest, h⟩ :=
    (many_traces (commaItem_traces (declarator_traces storage))).bind hfirst.within h
  obtain ⟨_, s₃, hend, h⟩ := (keeps_expect _ _).skip hrest.within h
  cases spanFrom_bind h
  exact (hfirst.trans hrest).thenSkip hend

theorem externalAfter_traces (start : Span) (storage : Storage) :
    Traces all (externalAfter start storage) fun e table =>
      Reader.externalItems ⟨all, table⟩ e := by
  intro s e s' w h
  obtain ⟨pointer, s₁, hpointer, h⟩ := keeps_pointerMark.skip w h
  obtain ⟨t, ht, h⟩ := currentSpan_bind h
  obtain ⟨s₂, hmove, hname, h⟩ := expectName_moves h hpointer.within ht
  have hpre := hpointer.thenSkip hmove
  obtain ⟨v, -, ⟨-, h⟩ | ⟨-, h⟩⟩ := check_bind h
  · exact hpre.afterSkip (functionAfter_traces _ _ _ hpre.within h)
  · exact hpre.afterSkip (globalAfter_moves hname hpre.within h)

theorem external_traces : Traces all external fun r table =>
    r.elim [] (Reader.externalItems ⟨all, table⟩ ·) := by
  intro s r s' w h
  obtain ⟨t, k, -, -, h⟩ := currentKind_bind h
  split at h
  · cases h
    exact .refl w
  · obtain ⟨_, s₁, hskip, h⟩ := keeps_advance.skip w h
    cases h
    exact hskip
  · obtain ⟨e, s₁, he, h⟩ := bind_inv h
    cases h
    obtain ⟨u, -, he⟩ := currentSpan_bind he
    obtain ⟨-, -, -, he⟩ | he := atType_bind he
    · obtain ⟨words, s₂, hwords, he⟩ := keeps_specifiers.skip w he
      obtain ⟨b, s₃, hend, he⟩ := (keeps_accept _).skip hwords.within he
      cases b with
      | true =>
        cases he
        exact hwords.thenSkip hend
      | false =>
        exact (hwords.thenSkip hend).afterSkip (externalAfter_traces u.span _ hend.within he)
    · exact absurd he fail_inv

theorem externals_traces : Traces all externals fun es table =>
    es.flatMap (Reader.externalItems ⟨all, table⟩) :=
  many_traces external_traces

end Externals

end Grammar

end LoopLegality

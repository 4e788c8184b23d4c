import LoopLegality.Proofs.ExpressionWalk

namespace LoopLegality.Grammar

open Token (nameUnder?)

variable {all : List Token} {s s' : State}

section Declarations

theorem qualifier_quiet : Quiet all qualifier := by
  intro s r s' w h
  obtain ⟨t, _, ht, rfl, h⟩ := currentKind_bind h
  split at h
  · rename_i hk
    obtain ⟨s₁, hpass, h⟩ := advance_bind h w ht (by rcases hk with hk | hk | hk <;> simp [hk])
    cases h
    exact ⟨[t], hpass⟩
  · cases h
    exact ⟨[], .refl w⟩

theorem qualifiedStar_quiet : Quiet all qualifiedStar := by
  intro s r s' w h
  obtain ⟨t, s₁, -, hstar, h⟩ | h := accept_bind h w nofun
  · obtain ⟨_, s₂, ts, hts, h⟩ := (many_quiet qualifier_quiet).bind hstar.within h
    cases h
    exact ⟨_, hstar.thenSilent hts⟩
  · cases h
    exact ⟨[], .refl w⟩

theorem pointerMark_quiet : Quiet all pointerMark := by
  intro s pointer s' w h
  obtain ⟨stars, s₁, ts, hts, h⟩ := (many_quiet qualifiedStar_quiet).bind w h
  cases h
  exact ⟨ts, hts⟩

theorem assignment_walks : Walks all assignment fun e _ => e.events all := formOf_walks .assignment

theorem dimension_walks : Walks all dimension fun r _ =>
    r.elim [] fun d => Expr.eventsOf all d.toList := by
  intro s r s' w h
  obtain ⟨t, s₁, -, hopen, h⟩ | h := accept_bind h w nofun
  · obtain ⟨u, s₂, -, hclose, h⟩ | h := accept_bind h hopen.within nofun
    · cases h
      exact ⟨_, (hopen.thenSilent hclose).congr fun _ => by simp [silent]⟩
    · obtain ⟨e, s₂, ts, hts, h⟩ := assignment_walks.bind hopen.within h
      obtain ⟨u, s₃, -, hclose, h⟩ := expectPunct_bind h hts.within
      cases h
      exact ⟨_, ((hopen.afterSilent hts).thenSilent hclose).congr fun _ => by
        simp⟩
  · cases h
    exact ⟨[], .refl w⟩

theorem dimensions_walks : Walks all dimensions fun ds _ =>
    Expr.eventsOf all (ds.filterMap id) := by
  intro s ds s' w h
  obtain ⟨ts, hts⟩ := many_walks dimension_walks w h
  refine ⟨ts, hts.congr fun _ => ?_⟩
  clear hts h
  induction ds with
  | nil => simp
  | cons d ds ih => cases d <;> simp [ih]

theorem initializerItem_walks {item : Parser Initializer}
    (hitem : Walks all item fun i _ => Expr.eventsOf all i.exprs) (more : Bool) :
    Walks all (initializerItem item more) fun r _ =>
      r.elim [] fun p => Expr.eventsOf all p.2.exprs := by
  intro s r s' w h
  cases more with
  | false =>
    cases h
    exact ⟨[], .refl w⟩
  | true =>
    obtain ⟨t, -, ⟨-, h⟩ | ⟨-, h⟩⟩ := check_bind h
    · cases h
      exact ⟨[], .refl w⟩
    · obtain ⟨i, s₁, ts, hts, h⟩ := hitem.bind w h
      obtain ⟨u, s₂, -, hcomma, h⟩ | h := accept_bind h hts.within nofun
      · cases h
        exact ⟨_, hts.thenSilent hcomma⟩
      · cases h
        exact ⟨ts, hts⟩

theorem initializerItems_walks {item : Parser Initializer}
    (hitem : Walks all item fun i _ => Expr.eventsOf all i.exprs) (n : Nat) (more : Bool) :
    Walks all (initializerItems item n more) fun is _ =>
      Expr.eventsOf all (Initializer.exprsOf is) := by
  induction n generalizing more with
  | zero =>
    intro s is s' w h
    cases h
    exact ⟨[], .refl w⟩
  | succ n ih =>
    intro s is s' w h
    obtain ⟨r, s₁, ts, hts, h⟩ := (initializerItem_walks hitem more).bind w h
    cases r with
    | none =>
      cases h
      exact ⟨ts, hts⟩
    | some p =>
      obtain ⟨rest, s₂, us, hus, h⟩ := (ih p.1).bind hts.within h
      cases h
      exact ⟨_, (hts.trans hus).congr fun _ => by
        simp [Initializer.exprsOf, eventsOf_append]⟩

theorem initializerWithin_walks (n : Nat) :
    Walks all (initializerWithin n) fun i _ => Expr.eventsOf all i.exprs := by
  induction n with
  | zero => exact fun _ _ _ _ h => absurd h fail_inv
  | succ n ih =>
    intro s i s' w h
    obtain ⟨t, s₁, -, hopen, h⟩ | h := accept_bind h w nofun
    · obtain ⟨m, h⟩ := remaining_bind h
      obtain ⟨items, s₂, ts, hts, h⟩ := (initializerItems_walks ih _ _).bind hopen.within h
      obtain ⟨u, s₃, -, hclose, h⟩ := expectPunct_bind h hts.within
      cases h
      exact ⟨_, ((hopen.afterSilent hts).thenSilent hclose).congr fun _ => by
        simp [Initializer.exprs]⟩
    · obtain ⟨e, s₁, ts, hts, h⟩ := assignment_walks.bind w h
      cases h
      exact ⟨ts, hts.congr fun _ => by simp [Initializer.exprs]⟩

theorem optionalInitializer_walks : Walks all optionalInitializer fun r _ =>
    Expr.eventsOf all ((r.map Initializer.exprs).getD []) := by
  intro s r s' w h
  obtain ⟨t, s₁, -, hassign, h⟩ | h := accept_bind h w nofun
  · obtain ⟨i, s₂, hi, h⟩ := bind_inv h
    obtain ⟨n, hi⟩ := remaining_bind hi
    obtain ⟨ts, hts⟩ := initializerWithin_walks _ hassign.within hi
    cases h
    exact ⟨_, hassign.afterSilent hts⟩
  · cases h
    exact ⟨[], .refl w⟩

theorem declaredKind_ne (pointer : Bool) (rank : Nat) : declaredKind pointer rank ≠ .function := by
  rw [declaredKind]
  split
  · nofun
  · split <;> nofun

theorem passes_declare {name unnamed : String} {span : Span} {kind : Symbol.Kind}
    (w : Within all s) (hkind : kind ≠ .function)
    (hname : (nameUnder? span all).getD unnamed = name) :
    Passes all s []
      (fun table => [.declare
        ((Reader.declared? ⟨all, table⟩ (s.scopes.declare name kind span).1).getD unnamed)
        (s.scopes.declare name kind span).1])
      { s with scopes := (s.scopes.declare name kind span).2 } := by
  refine ⟨w, rfl, rfl, rfl, fun table htable => ?_⟩
  have hinfo := s.scopes.table.info?_declare ⟨name, kind, span, s.scopes.depth⟩ s.scopes.table.size
  rw [if_pos rfl, ← Scopes.declare_table] at hinfo
  obtain ⟨i, hi, hspan⟩ := htable _ _ hinfo
  have hdeclared : Reader.declared? ⟨all, table⟩ (s.scopes.declare name kind span).1 =
      nameUnder? span all := by
    rw [Reader.declared?, Scopes.declare_fst, hi, Option.bind_some, hspan]
  rw [hdeclared, hname]
  exact (Scopes.Step.declare s.scopes name span hkind).runs

theorem declaratorAfter_inv {name unnamed : String} {span : Span} {pointer : Bool}
    {storage : Storage} {d : Declarator} (hname : (nameUnder? span all).getD unnamed = name)
    (w : Within all s) (h : declaratorAfter name span pointer storage s = .ok (d, s')) :
    ∃ ts, Passes all s ts (fun table => Reader.declarator ⟨all, table⟩ unnamed d) s' := by
  obtain ⟨dims, s₁, ts, hdims, h⟩ := dimensions_walks.bind w h
  have h := bindName_bind h
  have hdeclare := passes_declare hdims.within (declaredKind_ne pointer dims.length) hname
  obtain ⟨init, s₂, us, hinit, h⟩ := optionalInitializer_walks.bind hdeclare.within h
  cases spanFrom_bind h
  exact ⟨_, (hdims.trans (hdeclare.trans hinit)).congr fun _ => rfl⟩

theorem parameterAfter_inv {name unnamed : String} {span : Span} {pointer : Bool}
    {d : Declarator} (hname : (nameUnder? span all).getD unnamed = name)
    (w : Within all s) (h : parameterAfter name span pointer s = .ok (d, s')) :
    ∃ ts, Passes all s ts (fun table => Reader.declarator ⟨all, table⟩ unnamed d) s' := by
  obtain ⟨dims, s₁, ts, hdims, h⟩ := dimensions_walks.bind w h
  have h := bindName_bind h
  have hdeclare := passes_declare hdims.within (declaredKind_ne pointer dims.length) hname
  cases spanFrom_bind h
  exact ⟨_, (hdims.trans hdeclare).congr fun _ => rfl⟩

theorem nameUnder?_passed {t : Token} {es : SymbolTable → List Event} (unnamed : String)
    (h : Passes all s [t] es s') (hk : t.kind = .identifier) :
    (nameUnder? t.span all).getD unnamed = t.lexeme := by
  rw [Token.nameUnder?_of_mem h.start.ordered h.mem, if_pos hk, Option.getD_some]

theorem declarator_walks (storage : Storage) : Walks all (declarator storage) fun d table =>
    Reader.declarator ⟨all, table⟩ "" d := by
  intro s d s' w h
  obtain ⟨pointer, s₁, ts, hpointer, h⟩ := pointerMark_quiet.bind w h
  obtain ⟨t, ht, h⟩ := currentSpan_bind h
  obtain ⟨u, s₂, hu, hname, h⟩ := expectName_bind h hpointer.within
  obtain rfl := ht.unique hname.heads
  obtain ⟨us, hus⟩ := declaratorAfter_inv (nameUnder?_passed "" hname hu) hname.within h
  exact ⟨_, (hpointer.thenSilent hname).afterSilent hus⟩

theorem declarators_walks (storage : Storage) : Walks all (declarators storage) fun ds table =>
    Reader.declarators ⟨all, table⟩ ds := by
  intro s ds s' w h
  obtain ⟨t, -, ⟨-, h⟩ | ⟨-, h⟩⟩ := check_bind h
  · cases h
    exact ⟨[], .refl w⟩
  · exact commaSeparated_walks (declarator_walks storage) w h

theorem declaration_walks : Walks all declaration fun ds table =>
    Reader.declarators ⟨all, table⟩ ds := by
  intro s ds s' w h
  obtain ⟨words, s₁, ts, hwords, h⟩ := specifiers_quiet.bind w h
  obtain ⟨ds, s₂, us, hds, h⟩ := (declarators_walks _).bind hwords.within h
  obtain ⟨t, s₃, -, hend, h⟩ := expectPunct_bind h hds.within
  cases h
  exact ⟨_, (hwords.afterSilent hds).thenSilent hend⟩

end Declarations

section Statements

theorem expression_walks : Walks all expression fun e _ => e.events all := formOf_walks .sequence

theorem withinBlock_inv {α : Type} {p : Parser α} {a : α} (w : Within all s)
    (h : withinBlock p s = .ok (a, s')) :
    ∃ s₁ s₂, Passes all s [] (fun _ => [.enter]) s₁ ∧ p s₁ = .ok (a, s₂) ∧
      (Within all s₂ → Passes all s₂ [] (fun _ => [.leave]) s') := by
  obtain ⟨a, s₂, hp, h⟩ := bind_inv (modifyScopes_bind h)
  cases modifyScopes_bind h
  exact ⟨_, s₂, w.step (.enter s.scopes), hp, fun w₂ => w₂.step (.leave s₂.scopes)⟩

/-- What a block passes lies between its ends. -/
theorem withinBlock_walks {α : Type} {p : Parser α} {es : α → SymbolTable → List Event}
    (hp : Walks all p es) :
    Walks all (withinBlock p) fun a table => .enter :: es a table ++ [.leave] := by
  intro s a s' w h
  obtain ⟨s₁, s₂, henter, ha, hleave⟩ := withinBlock_inv w h
  obtain ⟨ts, hts⟩ := hp henter.within ha
  exact ⟨_, (henter.trans hts).trans (hleave hts.within)⟩

theorem optional_walks {stop : Punct} : Walks all (expressionUnless stop) fun r table =>
    Reader.optional ⟨all, table⟩ r := by
  intro s r s' w h
  obtain ⟨t, -, ⟨-, h⟩ | ⟨-, h⟩⟩ := check_bind h
  · cases h
    exact ⟨[], (Passes.refl w).congr fun _ => by simp [silent, Reader.optional]⟩
  · obtain ⟨e, s₁, ts, hts, h⟩ := expression_walks.bind w h
    cases h
    exact ⟨ts, hts.congr fun _ => by simp [Reader.optional]⟩

theorem parenthesizedCondition_walks :
    Walks all parenthesizedCondition fun e _ => e.events all := by
  intro s e s' w h
  obtain ⟨t, s₁, -, hopen, h⟩ := expectPunct_bind h w
  obtain ⟨e, s₂, ts, hts, h⟩ := expression_walks.bind hopen.within h
  obtain ⟨u, s₃, -, hclose, h⟩ := expectPunct_bind h hts.within
  cases h
  exact ⟨_, (hopen.afterSilent hts).thenSilent hclose⟩

theorem forInit_walks : Walks all forInit fun r table => Reader.forInit ⟨all, table⟩ r := by
  intro s r s' w h
  obtain ⟨t, -, h⟩ := currentSpan_bind h
  obtain ⟨u, s₁, -, hend, h⟩ | h := accept_bind h w nofun
  · cases h
    exact ⟨_, hend⟩
  · obtain ⟨-, -, -, h⟩ | h := atType_bind h
    · obtain ⟨ds, s₁, ts, hts, h⟩ := declaration_walks.bind w h
      cases spanFrom_bind h
      exact ⟨ts, hts⟩
    · obtain ⟨e, s₁, ts, hts, h⟩ := expression_walks.bind w h
      obtain ⟨u, s₂, -, hend, h⟩ := expectPunct_bind h hts.within
      cases spanFrom_bind h
      exact ⟨_, hts.thenSilent hend⟩

theorem forHeader_walks (id : LoopId) :
    Walks all (forHeader id) fun h table => Reader.forHeader ⟨all, table⟩ h := by
  intro s r s' w h
  obtain ⟨init, s₁, ts, hinit, h⟩ := forInit_walks.bind w h
  obtain ⟨cond, s₂, us, hcond, h⟩ := optional_walks.bind hinit.within h
  obtain ⟨t, s₃, -, hend, h⟩ := expectPunct_bind h hcond.within
  obtain ⟨incr, s₄, vs, hincr, h⟩ := optional_walks.bind hend.within h
  obtain ⟨u, s₅, -, hclose, h⟩ := expectPunct_bind h hincr.within
  cases h
  exact ⟨_, (((hinit.trans hcond).thenSilent hend).trans hincr).thenSilent hclose⟩

variable {nested : Parser Stmt}
  (hnested : Walks all nested fun b table => Reader.stmt ⟨all, table⟩ b) (site : Site)

include hnested

theorem compound_walks (pragmas : List String) :
    Walks all (compound nested pragmas) fun b table => Reader.stmt ⟨all, table⟩ b := by
  intro s b s' w h
  have hitem : Walks all (blockItem nested) fun r table =>
      r.elim [] (Reader.stmt ⟨all, table⟩ ·) := by
    intro s r s' w h
    obtain ⟨t, k, -, -, h⟩ := currentKind_bind h
    split at h
    · cases h
      exact ⟨[], .refl w⟩
    · obtain ⟨b, s₁, ts, hts, h⟩ := hnested.bind w h
      cases h
      exact ⟨ts, hts⟩
  obtain ⟨t, -, h⟩ := currentSpan_bind h
  obtain ⟨u, s₁, -, hopen, h⟩ := expectPunct_bind h w
  obtain ⟨bs, s₂, ts, hts, h⟩ := (withinBlock_walks (many_walks hitem)).bind hopen.within h
  obtain ⟨v, s₃, -, hclose, h⟩ := expectPunct_bind h hts.within
  cases spanFrom_bind h
  refine ⟨_, ((hopen.afterSilent hts).thenSilent hclose).congr fun table => ?_⟩
  have hstmts (bs : List Stmt) : Reader.stmts ⟨all, table⟩ bs =
      bs.flatMap (Reader.stmt ⟨all, table⟩) := by
    induction bs with
    | nil => simp
    | cons b bs ih => simp [ih]
  simp [hstmts]

theorem forStatement_inv {t : Token} (w : Within all s) (ht : Heads s t) (hk : t.kind ≠ .eof)
    {f : Site → Stmt} (h : forStatement nested s = .ok (f, s')) :
    ∃ ts, Passes all s ts (fun table => Reader.stmt ⟨all, table⟩ (f site)) s' := by
  obtain ⟨id, s₁, hid, h⟩ := bind_inv h
  cases hid
  have hnumber : Passes all s [] silent { s with nextLoop := s.nextLoop + 1 } :=
    ⟨w, rfl, rfl, rfl, fun _ _ => .nil _⟩
  obtain ⟨s₂, hfor, h⟩ := advance_bind h hnumber.within ht hk
  obtain ⟨u, s₃, -, hopen, h⟩ := expectPunct_bind h hfor.within
  obtain ⟨s₄, s₅, henter, h, hleave⟩ := withinBlock_inv hopen.within h
  obtain ⟨header, s₆, ts, hheader, h⟩ := (forHeader_walks s.nextLoop).bind henter.within h
  obtain ⟨body, s₇, us, hbody, h⟩ := hnested.bind hheader.within h
  cases h
  have hblock := (henter.trans (hheader.trans hbody)).trans (hleave hbody.within)
  exact ⟨_, (((hnumber.thenSilent hfor).thenSilent hopen).afterSilent hblock).congr fun _ => by
    simp⟩

theorem elseBranch_walks : Walks all (elseBranch nested) fun r table =>
    r.elim [] (Reader.stmt ⟨all, table⟩ ·) := by
  intro s r s' w h
  obtain ⟨t, s₁, -, helse, h⟩ | h := accept_bind h w nofun
  · obtain ⟨b, s₂, ts, hts, h⟩ := hnested.bind helse.within h
    cases h
    exact ⟨_, helse.afterSilent hts⟩
  · cases h
    exact ⟨[], .refl w⟩

theorem ifStatement_inv {t : Token} (w : Within all s) (ht : Heads s t) (hk : t.kind ≠ .eof)
    {f : Site → Stmt} (h : ifStatement nested s = .ok (f, s')) :
    ∃ ts, Passes all s ts (fun table => Reader.stmt ⟨all, table⟩ (f site)) s' := by
  obtain ⟨s₁, hif, h⟩ := advance_bind h w ht hk
  obtain ⟨cond, s₂, ts, hcond, h⟩ := parenthesizedCondition_walks.bind hif.within h
  obtain ⟨yes, s₃, us, hyes, h⟩ := hnested.bind hcond.within h
  obtain ⟨no, s₄, vs, hno, h⟩ := (elseBranch_walks hnested).bind hyes.within h
  cases h
  exact ⟨_, (hif.afterSilent ((hcond.trans hyes).trans hno)).congr fun _ => by
    cases no <;> simp⟩

theorem doWhileStatement_inv {t : Token} (w : Within all s) (ht : Heads s t) (hk : t.kind ≠ .eof)
    {f : Site → Stmt} (h : doWhileStatement nested s = .ok (f, s')) :
    ∃ ts, Passes all s ts (fun table => Reader.stmt ⟨all, table⟩ (f site)) s' := by
  obtain ⟨s₁, hdo, h⟩ := advance_bind h w ht hk
  obtain ⟨body, s₂, ts, hbody, h⟩ := hnested.bind hdo.within h
  obtain ⟨u, s₃, -, hwhile, h⟩ := expect_bind h hbody.within nofun
  obtain ⟨cond, s₄, us, hcond, h⟩ := parenthesizedCondition_walks.bind hwhile.within h
  obtain ⟨v, s₅, -, hend, h⟩ := expectPunct_bind h hcond.within
  cases h
  exact ⟨_, ((hdo.afterSilent (hbody.thenSilent hwhile)).trans hcond).thenSilent hend |>.congr
    fun _ => by simp⟩

omit hnested

theorem returnStatement_inv {t : Token} (w : Within all s) (ht : Heads s t) (hk : t.kind ≠ .eof)
    {f : Site → Stmt} (h : returnStatement s = .ok (f, s')) :
    ∃ ts, Passes all s ts (fun table => Reader.stmt ⟨all, table⟩ (f site)) s' := by
  obtain ⟨s₁, hreturn, h⟩ := advance_bind h w ht hk
  obtain ⟨value, s₂, ts, hvalue, h⟩ := optional_walks.bind hreturn.within h
  obtain ⟨u, s₃, -, hend, h⟩ := expectPunct_bind h hvalue.within
  cases h
  exact ⟨_, ((hreturn.afterSilent hvalue).thenSilent hend).congr fun _ => by simp⟩

theorem gotoStatement_inv {t : Token} (w : Within all s) (ht : Heads s t) (hk : t.kind ≠ .eof)
    {f : Site → Stmt} (h : gotoStatement s = .ok (f, s')) :
    ∃ ts, Passes all s ts (fun table => Reader.stmt ⟨all, table⟩ (f site)) s' := by
  obtain ⟨s₁, hgoto, h⟩ := advance_bind h w ht hk
  obtain ⟨u, s₂, -, hname, h⟩ := expectName_bind h hgoto.within
  obtain ⟨v, s₃, -, hend, h⟩ := expectPunct_bind h hname.within
  cases h
  exact ⟨_, ((hgoto.thenSilent hname).thenSilent hend).congr fun _ => by
    simp [silent]⟩

theorem declarationOrExpression_walks : Walks all declarationOrExpression fun f table =>
    Reader.stmt ⟨all, table⟩ (f site) := by
  intro s f s' w h
  obtain ⟨-, -, -, h⟩ | h := atType_bind h
  · obtain ⟨ds, s₁, ts, hts, h⟩ := declaration_walks.bind w h
    cases h
    exact ⟨ts, hts.congr fun _ => by simp⟩
  · obtain ⟨e, s₁, ts, hts, h⟩ := expression_walks.bind w h
    obtain ⟨u, s₂, -, hend, h⟩ := expectPunct_bind h hts.within
    cases h
    exact ⟨_, (hts.thenSilent hend).congr fun _ => by simp⟩

include hnested

theorem labelOrOther_inv {t : Token} (w : Within all s) (ht : Heads s t) (hk : t.kind ≠ .eof)
    {f : Site → Stmt} (h : labelOrOther nested s = .ok (f, s')) :
    ∃ ts, Passes all s ts (fun table => Reader.stmt ⟨all, table⟩ (f site)) s' := by
  obtain ⟨u, hu, h⟩ := current_bind h
  obtain ⟨v, hv, h⟩ := peek_bind h
  by_cases hcolon : v.kind = .punct .colon
  · simp only [if_pos hcolon] at h
    obtain ⟨s₁, hlabel, h⟩ := advance_bind h w ht hk
    have hnext : Heads s₁ v := by
      rw [hlabel.tokens, ← hlabel.ending] at hv
      exact hv
    obtain ⟨s₂, hmark, h⟩ := advance_bind h hlabel.within hnext (by simp [hcolon])
    obtain ⟨body, s₃, ts, hbody, h⟩ := hnested.bind hmark.within h
    cases h
    exact ⟨_, ((hlabel.thenSilent hmark).afterSilent hbody).congr fun _ => by simp⟩
  · simp only [if_neg hcolon] at h
    exact declarationOrExpression_walks site w h

theorem simpleStatement_walks : Walks all (simpleStatement nested) fun f table =>
    Reader.stmt ⟨all, table⟩ (f site) := by
  intro s f s' w h
  obtain ⟨t, k, ht, hk, h⟩ := currentKind_bind h
  -- Three statements are a word and a mark behind it.
  have hword {p : Punct} {place : String} {g : Site → Stmt}
      (h : (do advance; expectPunct p place; return g) s = .ok (f, s')) (hne : t.kind ≠ .eof)
      (hg : ∀ table, Reader.stmt ⟨all, table⟩ (g site) = []) :
      ∃ ts, Passes all s ts (fun table => Reader.stmt ⟨all, table⟩ (f site)) s' := by
    obtain ⟨s₁, hpass, h⟩ := advance_bind h w ht hne
    obtain ⟨u, s₂, -, hend, h⟩ := expectPunct_bind h hpass.within
    cases h
    exact ⟨_, (hpass.thenSilent hend).congr fun table => (hg table).symm⟩
  -- Two are a word, a condition and a statement.
  have hcontrolled {g : Expr → Stmt → Site → Stmt}
      (h : (do advance; let cond ← parenthesizedCondition; return g cond (← nested)) s =
        .ok (f, s')) (hne : t.kind ≠ .eof)
      (hg : ∀ table cond body, Reader.stmt ⟨all, table⟩ (g cond body site) =
        cond.events all ++ Reader.stmt ⟨all, table⟩ body) :
      ∃ ts, Passes all s ts (fun table => Reader.stmt ⟨all, table⟩ (f site)) s' := by
    obtain ⟨s₁, hpass, h⟩ := advance_bind h w ht hne
    obtain ⟨cond, s₂, ts, hcond, h⟩ := parenthesizedCondition_walks.bind hpass.within h
    obtain ⟨body, s₃, us, hbody, h⟩ := hnested.bind hcond.within h
    cases h
    exact ⟨_, (hpass.afterSilent (hcond.trans hbody)).congr fun table => (hg table cond body).symm⟩
  split at h
  · obtain ⟨s₁, hpass, h⟩ := advance_bind h w ht (by simp [hk])
    cases h
    exact ⟨_, hpass.congr fun _ => by simp [silent]⟩
  · exact forStatement_inv hnested site w ht (by simp [hk]) h
  · exact ifStatement_inv hnested site w ht (by simp [hk]) h
  · exact hcontrolled h (by simp [hk]) fun _ _ _ => by simp
  · exact doWhileStatement_inv hnested site w ht (by simp [hk]) h
  · exact hcontrolled h (by simp [hk]) fun _ _ _ => by simp
  · obtain ⟨s₁, hpass, h⟩ := advance_bind h w ht (by simp [hk])
    obtain ⟨value, s₂, ts, hvalue, h⟩ := (formOf_walks .conditional).bind hpass.within h
    obtain ⟨u, s₃, -, hend, h⟩ := expectPunct_bind h hvalue.within
    cases h
    exact ⟨_, ((hpass.afterSilent hvalue).thenSilent hend).congr fun _ => by simp⟩
  · exact hword h (by simp [hk]) fun _ => by simp
  · exact hword h (by simp [hk]) fun _ => by simp
  · exact hword h (by simp [hk]) fun _ => by simp
  · exact returnStatement_inv site w ht (by simp [hk]) h
  · exact gotoStatement_inv site w ht (by simp [hk]) h
  · exact labelOrOther_inv hnested site w ht (by simp [hk]) h
  · exact declarationOrExpression_walks site w h

theorem statementOf_walks :
    Walks all (statementOf nested) fun b table => Reader.stmt ⟨all, table⟩ b := by
  intro s b s' w h
  have hpragma : Quiet all pragmaLine := by
    intro s r s' w h
    obtain ⟨t, ht, ⟨hk, h⟩ | ⟨-, h⟩⟩ := check_bind h
    · obtain ⟨s₁, hpass, h⟩ := lexemeAndAdvance_bind h w ht (by simp [hk])
      cases h
      exact ⟨[t], hpass⟩
    · cases h
      exact ⟨[], .refl w⟩
  obtain ⟨pragmas, s₁, ts, hts, h⟩ := (many_quiet hpragma).bind w h
  obtain ⟨t, -, h⟩ := currentSpan_bind h
  obtain ⟨u, -, ⟨-, h⟩ | ⟨-, h⟩⟩ := check_bind h
  · obtain ⟨us, hus⟩ := compound_walks hnested pragmas hts.within h
    exact ⟨_, hts.afterSilent hus⟩
  · obtain ⟨f, s₂, hf, h⟩ := bind_inv h
    cases spanFrom_bind h
    obtain ⟨us, hus⟩ := simpleStatement_walks hnested _ hts.within hf
    exact ⟨_, hts.afterSilent hus⟩

omit hnested

theorem statementWithin_walks (n : Nat) :
    Walks all (statementWithin n) fun b table => Reader.stmt ⟨all, table⟩ b := by
  induction n with
  | zero => exact fun _ _ _ _ h => absurd h fail_inv
  | succ n ih => exact statementOf_walks ih

theorem statement_walks : Walks all statement fun b table => Reader.stmt ⟨all, table⟩ b := by
  intro s b s' w h
  obtain ⟨n, h⟩ := remaining_bind h
  exact statementWithin_walks _ w h

end Statements

section Externals

theorem Heads.nameUnder?_eq_none {t : Token} (ht : Heads s t) (w : Within all s)
    (hk : t.kind ≠ .identifier) : nameUnder? t.span all = none := by
  rw [Heads] at ht
  cases hs : s.tokens with
  | cons u rest =>
    simp only [hs, headToken, Except.ok.injEq] at ht
    have hmem : t ∈ all := w.tokens.subset (by simp [hs, ht])
    rw [Token.nameUnder?_of_mem w.ordered hmem, if_neg hk]
  | nil =>
    cases he : s.ending with
    | error e => simp [hs, he, headToken] at ht
    | ok eof =>
      simp only [hs, he, headToken, Except.ok.injEq] at ht
      exact (ht ▸ w.ending eof he).nameUnder? w.ordered

theorem parameter_walks (position : Nat) : Walks all (parameter position) fun d table =>
    Reader.declarator ⟨all, table⟩ s!"<param{position}>" d := by
  intro s d s' w h
  obtain ⟨-, -, -, h⟩ | h := atType_bind h
  · obtain ⟨words, s₁, ts, hwords, h⟩ := specifiers_quiet.bind w h
    obtain ⟨pointer, s₂, us, hpointer, h⟩ := pointerMark_quiet.bind hwords.within h
    obtain ⟨t, ht, h⟩ := currentSpan_bind h
    have hpre := hwords.thenSilent hpointer
    obtain ⟨name, s₃, hname, h⟩ := bind_inv h
    obtain ⟨u, hu, ⟨hk, hname⟩ | ⟨hk, hname⟩⟩ := check_bind hname
    · obtain rfl := ht.unique hu
      obtain ⟨rfl, hpass⟩ := lexemeAndAdvance_inv hname hpre.within ht (by simp [hk])
      obtain ⟨vs, hvs⟩ := parameterAfter_inv (nameUnder?_passed _ hpass hk) hpass.within h
      exact ⟨_, (hpre.thenSilent hpass).afterSilent hvs⟩
    · obtain rfl := ht.unique hu
      cases hname
      obtain ⟨vs, hvs⟩ := parameterAfter_inv
        (by rw [ht.nameUnder?_eq_none hpre.within hk, Option.getD_none]) hpre.within h
      exact ⟨_, hpre.afterSilent hvs⟩
  · exact absurd h fail_inv

theorem parametersFrom_walks (n position : Nat) :
    Walks all (parametersFrom n position) fun ds table =>
      Reader.parameters ⟨all, table⟩ position ds := by
  induction n generalizing position with
  | zero =>
    intro s ds s' w h
    cases h
    exact ⟨[], .refl w⟩
  | succ n ih =>
    intro s ds s' w h
    obtain ⟨d, s₁, ts, hd, h⟩ := (parameter_walks position).bind w h
    obtain ⟨t, s₂, -, hcomma, h⟩ | h := accept_bind h hd.within nofun
    · obtain ⟨ds, s₃, us, hds, h⟩ := (ih (position + 1)).bind hcomma.within h
      cases h
      exact ⟨_, (hd.thenSilent hcomma).trans hds⟩
    · cases h
      exact ⟨ts, hd.congr fun _ => by simp [Reader.parameters]⟩

theorem parameters_walks : Walks all parameters fun ds table =>
    Reader.parameters ⟨all, table⟩ 0 ds := by
  intro s ds s' w h
  have hfrom (h : (do parametersFrom ((← remaining) + 1) 0) s = .ok (ds, s')) :
      ∃ ts, Passes all s ts (fun table => Reader.parameters ⟨all, table⟩ 0 ds) s' := by
    obtain ⟨n, h⟩ := remaining_bind h
    exact parametersFrom_walks _ _ w h
  obtain ⟨t, ht, ⟨-, h⟩ | ⟨-, h⟩⟩ := check_bind h
  · cases h
    exact ⟨[], .refl w⟩
  · obtain ⟨u, hu, ⟨hk, h⟩ | ⟨-, h⟩⟩ := check_bind h
    · obtain ⟨v, -, h⟩ := peek_bind h
      split at h
      · obtain ⟨s₁, hpass, h⟩ := advance_bind h w hu (by simp [hk])
        cases h
        exact ⟨_, hpass⟩
      · exact hfrom h
    · exact hfrom h

theorem functionSymbol_inv {name : String} {span : Span} {x : Symbol} (w : Within all s)
    (h : functionSymbol name span s = .ok (x, s')) :
    Passes all s [] (fun _ => [.function name x]) s' := by
  have h := scopes_bind h
  have hnew (hne : ∀ y, s.scopes.lookup? name = some y → s.scopes.table.kind? y ≠ some .function)
      (h : bindName (·.declare name .function span) s = .ok (x, s')) :
      Passes all s [] (fun _ => [.function name x]) s' := by
    cases h
    exact w.step (.function span hne)
  cases hlookup : s.scopes.lookup? name with
  | none =>
    rw [hlookup] at h
    exact hnew (by simp [hlookup]) h
  | some y =>
    rw [hlookup] at h
    by_cases hkind : s.scopes.table.kind? y = some .function
    · simp only [if_pos hkind] at h
      cases h
      exact w.step (.again hlookup hkind)
    · simp only [if_neg hkind] at h
      exact hnew (by simpa [hlookup] using hkind) h

theorem parametersAndBody_walks : Walks all parametersAndBody fun p table =>
    .enter :: (Reader.parameters ⟨all, table⟩ 0 p.1 ++ Reader.stmts ⟨all, table⟩ p.2.toList) ++
      [.leave] := by
  refine withinBlock_walks ?_
  intro s p s' w h
  obtain ⟨params, s₁, ts, hparams, h⟩ := parameters_walks.bind w h
  obtain ⟨t, s₂, -, hclose, h⟩ := expectPunct_bind h hparams.within
  obtain ⟨u, -, ⟨-, h⟩ | ⟨-, h⟩⟩ := check_bind h
  · obtain ⟨body, s₃, us, hbody, h⟩ := (compound_walks statement_walks []).bind hclose.within h
    cases h
    exact ⟨_, ((hparams.thenSilent hclose).trans hbody).congr fun _ => by simp⟩
  · cases h
    exact ⟨_, (hparams.thenSilent hclose).congr fun _ => by simp⟩

theorem functionAfter_inv {start span : Span} {name : String} {t : Token} {e : External}
    (w : Within all s) (ht : Heads s t) (hk : t.kind ≠ .eof)
    (h : functionAfter start name span s = .ok (e, s')) :
    ∃ ts, Passes all s ts (fun table => Reader.external ⟨all, table⟩ e) s' := by
  obtain ⟨x, s₁, hx, h⟩ := bind_inv h
  have hfunction := functionSymbol_inv w hx
  obtain ⟨s₂, hopen, h⟩ := advance_bind h hfunction.within (ht.passes hfunction) hk
  obtain ⟨⟨params, body⟩, s₃, ts, hblock, h⟩ := parametersAndBody_walks.bind hopen.within h
  have hall := (hfunction.thenSilent hopen).trans hblock
  cases body with
  | some body =>
    cases spanFrom_bind h
    exact ⟨_, hall.congr fun _ => rfl⟩
  | none =>
    obtain ⟨u, s₄, -, hend, h⟩ := expectPunct_bind h hblock.within
    cases h
    exact ⟨_, (hall.thenSilent hend).congr fun _ => rfl⟩

theorem globalAfter_inv {start span : Span} {name : String} {pointer : Bool} {storage : Storage}
    {e : External} (hname : (nameUnder? span all).getD "" = name) (w : Within all s)
    (h : globalAfter start name span pointer storage s = .ok (e, s')) :
    ∃ ts, Passes all s ts (fun table => Reader.external ⟨all, table⟩ e) s' := by
  obtain ⟨first, s₁, hfirst, h⟩ := bind_inv h
  obtain ⟨ts, hts⟩ := declaratorAfter_inv hname w hfirst
  obtain ⟨rest, s₂, us, hrest, h⟩ :=
    (many_walks (commaItem_walks (declarator_walks storage))).bind hts.within h
  obtain ⟨t, s₃, -, hend, h⟩ := expectPunct_bind h hrest.within
  cases spanFrom_bind h
  exact ⟨_, (hts.trans hrest).thenSilent hend⟩

theorem externalAfter_walks (start : Span) (storage : Storage) :
    Walks all (externalAfter start storage) fun e table => Reader.external ⟨all, table⟩ e := by
  intro s e s' w h
  obtain ⟨pointer, s₁, ts, hpointer, h⟩ := pointerMark_quiet.bind w h
  obtain ⟨t, ht, h⟩ := currentSpan_bind h
  obtain ⟨u, s₂, hu, hname, h⟩ := expectName_bind h hpointer.within
  obtain rfl := ht.unique hname.heads
  have hpre := hpointer.thenSilent hname
  obtain ⟨v, hv, ⟨hk, h⟩ | ⟨-, h⟩⟩ := check_bind h
  · obtain ⟨us, hus⟩ := functionAfter_inv hpre.within hv (by simp [hk]) h
    exact ⟨_, hpre.afterSilent hus⟩
  · obtain ⟨us, hus⟩ := globalAfter_inv (nameUnder?_passed "" hname hu) hpre.within h
    exact ⟨_, hpre.afterSilent hus⟩

theorem external_walks : Walks all external fun r table =>
    r.elim [] (Reader.external ⟨all, table⟩ ·) := by
  intro s r s' w h
  obtain ⟨t, k, ht, hk, h⟩ := currentKind_bind h
  split at h
  · cases h
    exact ⟨[], .refl w⟩
  · obtain ⟨s₁, hpass, h⟩ := advance_bind h w ht (by simp [hk])
    cases h
    exact ⟨_, hpass⟩
  · obtain ⟨e, s₁, he, h⟩ := bind_inv h
    cases h
    obtain ⟨u, -, he⟩ := currentSpan_bind he
    obtain ⟨-, -, -, he⟩ | he := atType_bind he
    · obtain ⟨words, s₂, ts, hwords, he⟩ := specifiers_quiet.bind w he
      obtain ⟨v, s₃, -, hend, he⟩ | he := accept_bind he hwords.within nofun
      · cases he
        exact ⟨_, hwords.thenSilent hend⟩
      · obtain ⟨us, hus⟩ := externalAfter_walks u.span _ hwords.within he
        exact ⟨_, hwords.afterSilent hus⟩
    · exact absurd he fail_inv

theorem externals_walks : Walks all externals fun es table => Reader.externals ⟨all, table⟩ es :=
  many_walks external_walks

end Externals

theorem within_start (source : String) :
    Within (Token.scan source).tokens (.start (Token.scan source)) :=
  have hscan := Token.scansFrom_scanFrom source.toList.length true .start source.toList Nat.one_pos
  ⟨hscan.ordered, List.suffix_rfl, hscan.ending⟩

end LoopLegality.Grammar

namespace LoopLegality

/-- Every occurrence of a name in a file, in order, with the binding that scoping gives it. -/
def Reader.occurrences (c : Reader) (es : List Grammar.External) : List (Symbol × Binding) :=
  Resolver.start.occurrences (c.externals es)

namespace Program

/-- Names stand for what lexical scoping says. The declarations of a text, prototypes among
them, are walked in order by a resolver that keeps a stack of blocks: two occurrences of names
have one symbol just if the resolver gives them one binding. -/
theorem symbol_eq_iff_binding_eq {source : String} {p : Program} (h : parse source = .ok p) :
    ∃ es s, Grammar.externals (.start (Token.scan source)) = .ok (es, s) ∧
      p = .ofExternals es s.scopes.table ∧
      ∀ o ∈ Reader.occurrences ⟨(Token.scan source).tokens, p.symbols⟩ es,
        ∀ o' ∈ Reader.occurrences ⟨(Token.scan source).tokens, p.symbols⟩ es,
          o.1 = o'.1 ↔ o.2 = o'.2 := by
  rw [parse] at h
  cases hexternals : Grammar.externals (.start (Token.scan source)) with
  | error e => simp [hexternals, bind, Except.bind] at h
  | ok r =>
    obtain ⟨es, s⟩ := r
    simp only [hexternals, bind, Except.bind, pure, Except.pure, Except.ok.injEq] at h
    obtain ⟨ts, hts⟩ := Grammar.externals_walks (Grammar.within_start source) hexternals
    have hrun := hts.scopes s.scopes.table (.refl _)
    subst h
    exact ⟨es, s, rfl, rfl, fun o ho o' ho' => hrun.symbol_eq_iff ho ho'⟩

/-- A parameter hides a variable, a member is neither, and a function that is called before it
is declared is the one declared. -/
theorem symbol_eq_iff_binding_eq_shadowed :
    ∃ source p es s,
      source = "int n; int f(int n) \x7b return g(n) + t.n; \x7d int g(int n);" ∧
      parse source = .ok p ∧ Grammar.externals (.start (Token.scan source)) = .ok (es, s) ∧
      p = .ofExternals es s.scopes.table ∧
      Reader.occurrences ⟨(Token.scan source).tokens, p.symbols⟩ es =
        [(0, .declared 0), (1, .declared 1), (2, .declared 2), (3, .implicit "g"),
          (2, .declared 2), (4, .implicit "t"), (5, .member "n"), (3, .implicit "g"),
          (6, .declared 3)] ∧
      ∀ o ∈ Reader.occurrences ⟨(Token.scan source).tokens, p.symbols⟩ es,
        ∀ o' ∈ Reader.occurrences ⟨(Token.scan source).tokens, p.symbols⟩ es,
          o.1 = o'.1 ↔ o.2 = o'.2 := by
  obtain ⟨source, hsource⟩ : ∃ source,
      source = "int n; int f(int n) \x7b return g(n) + t.n; \x7d int g(int n);" := ⟨_, rfl⟩
  have hrun : ((Grammar.externals (.start (Token.scan source))).toOption.map fun r =>
      Reader.occurrences ⟨(Token.scan source).tokens, r.2.scopes.table⟩ r.1) =
        some [(0, .declared 0), (1, .declared 1), (2, .declared 2), (3, .implicit "g"),
          (2, .declared 2), (4, .implicit "t"), (5, .member "n"), (3, .implicit "g"),
          (6, .declared 3)] := by
    subst hsource
    decide +kernel
  obtain ⟨⟨es, s⟩, hes, hoccurrences⟩ := Option.map_eq_some_iff.mp hrun
  have hexternals : Grammar.externals (.start (Token.scan source)) = .ok (es, s) := by
    cases h : Grammar.externals (.start (Token.scan source)) with
    | error e => simp [h, Except.toOption] at hes
    | ok r => exact congrArg _ (Option.some.inj (by simpa [h, Except.toOption] using hes))
  have hparse : parse source = .ok (.ofExternals es s.scopes.table) := by
    simp [parse, hexternals, bind, Except.bind, pure, Except.pure]
  obtain ⟨es', s', hexternals', -, hall⟩ := symbol_eq_iff_binding_eq hparse
  cases hexternals.symm.trans hexternals'
  exact ⟨source, _, es, s, hsource, hparse, hexternals, rfl, hoccurrences, hall⟩

end Program

end LoopLegality

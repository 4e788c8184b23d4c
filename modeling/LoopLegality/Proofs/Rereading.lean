import LoopLegality.Proofs.Forms
import LoopLegality.Proofs.Inversion

namespace LoopLegality

namespace Scopes

/-- What scopes say about names: the binding of each, and which binding is the next one. -/
structure Names where
  blocks : List Frame
  file : Frame
  members : Frame
  count : Nat

def names (s : Scopes) : Names := ⟨s.blocks, s.file, s.members, s.table.size⟩

variable {a b : Scopes}

theorem names_eq_iff : a.names = b.names ↔ a.blocks = b.blocks ∧ a.file = b.file ∧
    a.members = b.members ∧ a.table.size = b.table.size := by
  rw [names, names, Names.mk.injEq]

theorem lookup?_of_names (h : a.names = b.names) (name : String) :
    a.lookup? name = b.lookup? name := by
  obtain ⟨hblocks, hfile, -⟩ := names_eq_iff.mp h
  rw [lookup?, lookup?, hblocks, hfile]

theorem names_table {t : SymbolTable} (h : t.size = a.table.size) :
    { a with table := t }.names = a.names := by
  rw [names, names, h]

theorem names_refine (s : Scopes) (x : Symbol) (k : Symbol.Kind) : (s.refine x k).names = s.names :=
  names_table (s.table.size_refine x k)

theorem Runs.names_eq {es : List Event} (h : Runs a es b) (hes : es = []) : b.names = a.names := by
  induction h with
  | nil => rfl
  | cons hstep _ ih =>
    obtain ⟨rfl, rfl⟩ := List.append_eq_nil_iff.mp hes
    cases hstep with
    | refine x rank => exact (ih rfl).trans (names_refine _ x _)

theorem resolve_of_names (h : a.names = b.names) (name : String) (k l : Symbol.Kind) :
    (a.resolve name k).1 = (b.resolve name l).1 ∧
      (a.resolve name k).2.names = (b.resolve name l).2.names := by
  have hlookup := lookup?_of_names h name
  obtain ⟨hblocks, hfile, hmembers, hsize⟩ := names_eq_iff.mp h
  rw [resolve, resolve, hlookup]
  cases b.lookup? name with
  | some x => exact ⟨rfl, h⟩
  | none =>
    refine ⟨hsize, names_eq_iff.mpr ⟨hblocks, ?_, hmembers, ?_⟩⟩
    · simp only [SymbolTable.declare, hfile, hsize]
    · simp only [SymbolTable.size_declare, hsize]

theorem member_of_names (h : a.names = b.names) (name : String) :
    (a.member name).1 = (b.member name).1 ∧
      (a.member name).2.names = (b.member name).2.names := by
  obtain ⟨hblocks, hfile, hmembers, hsize⟩ := names_eq_iff.mp h
  rw [member, member, hmembers]
  cases b.members.lookup name with
  | some x => exact ⟨rfl, h⟩
  | none =>
    refine ⟨hsize, names_eq_iff.mpr ⟨hblocks, hfile, ?_, ?_⟩⟩
    · simp only [SymbolTable.declare, hsize]
    · simp only [SymbolTable.size_declare, hsize]

end Scopes

namespace Grammar

theorem startsType_of_names {a b : Scopes} (h : a.names = b.names) (t : Token) :
    startsType a t = startsType b t := by
  rw [startsType, startsType, Scopes.lookup?_of_names h]

theorem Passes.names_eq {all ts : List Token} {s s' : State} (h : Passes all s ts silent s') :
    s'.scopes.names = s.scopes.names :=
  (h.scopes _ (.refl _)).names_eq rfl

def spanAfter (p : Span) (ts : List Token) : Span := (ts.getLast?.map Token.span).getD p

@[simp] theorem spanAfter_nil (p : Span) : spanAfter p [] = p := rfl

@[simp] theorem spanAfter_append (p : Span) (ts us : List Token) :
    spanAfter p (ts ++ us) = spanAfter (spanAfter p ts) us := by
  rw [spanAfter, spanAfter, spanAfter, List.getLast?_append]
  cases us.getLast? <;> rfl

@[simp] theorem spanAfter_cons (p : Span) (t : Token) (ts : List Token) :
    spanAfter p (t :: ts) = spanAfter t.span ts :=
  spanAfter_append p [t] ts

variable {α : Type} {v v' v₁ v₂ : Scopes.Names} {F G : Token.Kind → Prop} {ts us vs : List Token}
  {t u : Token} {e f : Expr}

/-- Wherever the tokens stand before one whose kind is allowed, the parser reads them as `a`, and
takes names from `v` to `v'`. -/
def Rereads (m : Parser α) (F : Token.Kind → Prop) (ts : List Token) (a : α)
    (v v' : Scopes.Names) : Prop :=
  ∀ (rest : List Token) (eof : Token) (p : Span) (nl : Nat) ⦃sc : Scopes⦄,
    F (rest.headD eof).kind → sc.names = v → ∃ sc', sc'.names = v' ∧
      m ⟨ts ++ rest, .ok eof, p, sc, nl⟩ = .ok (a, ⟨rest, .ok eof, spanAfter p ts, sc', nl⟩)

/-- No expression of form `k` goes on with a token of this kind. -/
def Ends (k : Nat) (kind : Token.Kind) : Prop := Stops k kind ∧ kind ≠ .string

theorem Ends.mono {k k' : Nat} {kind : Token.Kind} (h : Ends k kind) (hk : k ≤ k') :
    Ends k' kind :=
  ⟨h.1.mono hk, h.2⟩

theorem ends_of_closer {k : Token.Kind} (h : k = .punct .rightParen ∨ k = .punct .rightBracket ∨
    k = .punct .colon ∨ k = .eof) : Ends 0 k :=
  ⟨stops_of_closer h, by rcases h with rfl | rfl | rfl | rfl <;> decide⟩

section Primary

variable {nested argument : Parser Expr}

theorem rereads_integer {n : Int} (ht : t.kind = .integer)
    (hn : Literal.integer? t.lexeme = some n) :
    Rereads (primary nested) F [t] (.int n t.span) v v := by
  intro rest eof p nl sc _ hsc
  refine ⟨sc, hsc, bind_ok (currentKind_of_eq ht) (bind_ok current_cons ?_)⟩
  rw [hn]
  exact bind_ok advance_cons rfl

theorem rereads_float {n : Nat} (ht : t.kind = .float) (hn : Literal.float? t.lexeme = some n) :
    Rereads (primary nested) F [t] (.float n t.span) v v := by
  intro rest eof p nl sc _ hsc
  refine ⟨sc, hsc, bind_ok (currentKind_of_eq ht) (bind_ok current_cons ?_)⟩
  rw [hn]
  exact bind_ok advance_cons rfl

theorem rereads_char (ht : t.kind = .char) :
    Rereads (primary nested) F [t] (.char (Literal.unquote t.lexeme) t.span) v v := by
  intro rest eof p nl sc _ hsc
  exact ⟨sc, hsc, bind_ok (currentKind_of_eq ht)
    (bind_ok current_cons (bind_ok advance_cons rfl))⟩

theorem runs_stringPart {rest : List Token} {eof : Token} (hts : ∀ t ∈ ts, t.kind = .string)
    (hrest : (rest.headD eof).kind ≠ .string) (p : Span) (sc : Scopes) (nl : Nat) :
    Runs stringPart ⟨ts ++ rest, .ok eof, p, sc, nl⟩ (ts.map fun t => Literal.unquote t.lexeme)
      ⟨rest, .ok eof, spanAfter p ts, sc, nl⟩ := by
  induction ts generalizing p with
  | nil => exact .nil (bind_ok (check_of_ne hrest) rfl)
  | cons t ts ih =>
    rw [List.forall_mem_cons] at hts
    rw [spanAfter_cons]
    exact .cons (bind_ok (check_of_eq hts.1) (bind_ok lexemeAndAdvance_eq rfl))
      (Nat.lt_succ_self _) (ih hts.2 t.span)

theorem rereads_string (ht : t.kind = .string) (hts : ∀ t ∈ ts, t.kind = .string) :
    Rereads (primary nested) (· ≠ .string) (t :: ts)
      (.str (String.join ((t :: ts).map fun t => Literal.unquote t.lexeme))
        (t.span.merge (spanAfter t.span ts))) v v := by
  intro rest eof p nl sc hrest hsc
  have hruns := runs_stringPart (List.forall_mem_cons.mpr ⟨ht, hts⟩) hrest p sc nl
  rw [spanAfter_cons] at hruns ⊢
  exact ⟨sc, hsc, bind_ok (currentKind_of_eq ht) (bind_ok currentSpan_cons
    (bind_ok hruns.many_eq (bind_ok rfl rfl)))⟩

theorem rereads_name {sc₀ : Scopes} {k : Symbol.Kind} (ht : t.kind = .identifier) :
    Rereads (primary nested) F [t] (.ident (sc₀.resolve t.lexeme k).1 t.span) sc₀.names
      (sc₀.resolve t.lexeme k).2.names := by
  intro rest eof p nl sc _ hsc
  have hresolve (l : Symbol.Kind) := Scopes.resolve_of_names hsc t.lexeme l k
  let l : Symbol.Kind := if (rest.headD eof).kind = .punct .leftParen then .function else .implicit
  refine ⟨(sc.resolve t.lexeme l).2, (hresolve l).2, ?_⟩
  rw [← (hresolve l).1]
  exact bind_ok (currentKind_of_eq ht) (bind_ok current_cons (bind_ok peek_eq
    (bind_ok advance_cons (bind_ok rfl rfl))))

theorem rereads_paren (ht : t.kind = .punct .leftParen) (hu : u.kind = .punct .rightParen)
    (h : Rereads nested (Ends 0) ts e v v') :
    Rereads (primary nested) F ([t] ++ ts ++ [u]) (e.withSpan (t.span.merge u.span)) v v' := by
  intro rest eof p nl sc _ hsc
  obtain ⟨sc', hsc', hrun⟩ := h (u :: rest) eof t.span nl (ends_of_closer (.inl hu)) hsc
  refine ⟨sc', hsc', ?_⟩
  rw [List.append_assoc, List.append_assoc]
  exact bind_ok (currentKind_of_eq ht) (bind_ok currentSpan_cons (bind_ok advance_cons
    (bind_ok hrun (bind_ok (expect_of_eq hu) (bind_ok rfl (by simp; rfl))))))

theorem rereads_subscript (ht : t.kind = .punct .leftBracket) (hu : u.kind = .punct .rightBracket)
    (h : Rereads nested (Ends 0) ts f v v') :
    Rereads (postfixStep nested argument e) F ([t] ++ ts ++ [u])
      (some (.subscript e f (e.span.merge u.span))) v v' := by
  intro rest eof p nl sc _ hsc
  obtain ⟨sc', hsc', hrun⟩ := h (u :: rest) eof t.span nl (ends_of_closer (.inr (.inl hu))) hsc
  refine ⟨sc', hsc', ?_⟩
  rw [List.append_assoc, List.append_assoc]
  exact bind_ok (currentKind_of_eq ht) (bind_ok advance_cons (bind_ok hrun
    (bind_ok (expect_of_eq hu) (bind_ok rfl (by simp; rfl)))))

theorem rereads_call {as : List Expr} (ht : t.kind = .punct .leftParen)
    (hu : u.kind = .punct .rightParen)
    (h : Rereads (arguments argument) (· = .punct .rightParen) ts as v v') :
    Rereads (postfixStep nested argument e) F ([t] ++ ts ++ [u])
      (some (.call e as (e.span.merge u.span))) v v' := by
  intro rest eof p nl sc _ hsc
  obtain ⟨sc', hsc', hrun⟩ := h (u :: rest) eof t.span nl hu hsc
  refine ⟨sc', hsc', ?_⟩
  rw [List.append_assoc, List.append_assoc]
  exact bind_ok (currentKind_of_eq ht) (bind_ok advance_cons (bind_ok hrun
    (bind_ok (expect_of_eq hu) (bind_ok rfl (by simp; rfl)))))

theorem rereads_member {sc₀ : Scopes} {arrow : Bool}
    (ht : t.kind = .punct (if arrow then .arrow else .dot)) (hu : u.kind = .identifier) :
    Rereads (postfixStep nested argument e) F [t, u]
      (some (.field e (sc₀.member u.lexeme).1 arrow (e.span.merge u.span))) sc₀.names
      (sc₀.member u.lexeme).2.names := by
  intro rest eof p nl sc _ hsc
  obtain ⟨hmember, hnames⟩ := Scopes.member_of_names hsc u.lexeme
  refine ⟨(sc.member u.lexeme).2, hnames, ?_⟩
  rw [← hmember]
  cases arrow <;>
    exact bind_ok (currentKind_of_eq ht) (bind_ok advance_cons (bind_ok (expectName_of_eq hu)
      (bind_ok rfl (bind_ok rfl rfl))))

theorem rereads_postOp {op : UnaryOp} (hop : op.isPostfix = true) (ht : t.kind = .punct op.punct) :
    Rereads (postfixStep nested argument e) F [t] (some (.unary op e (e.span.merge t.span)))
      v v := by
  intro rest eof p nl sc _ hsc
  refine ⟨sc, hsc, ?_⟩
  cases op <;> cases hop <;>
    exact bind_ok (currentKind_of_eq ht) (bind_ok advance_cons (bind_ok rfl rfl))

end Primary

section Items

variable {item : Parser Expr} {es : List Expr}

/-- Wherever the tokens stand before the end of a list, they are read as more items of it, each
behind a comma. -/
structure MoreItems (item : Parser Expr) (ts : List Token) (es : List Expr)
    (v v' : Scopes.Names) : Prop where
  comma : ∀ t ∈ ts.head?, t.kind = .punct .comma
  runs : ∀ (rest : List Token) (eof : Token) (p : Span) (nl : Nat) ⦃sc : Scopes⦄,
    Ends 0 (rest.headD eof).kind → sc.names = v → ∃ sc', sc'.names = v' ∧
      Runs (commaItem item) ⟨ts ++ rest, .ok eof, p, sc, nl⟩ es
        ⟨rest, .ok eof, spanAfter p ts, sc', nl⟩

theorem moreItems_nil : MoreItems item [] [] v v where
  comma := by simp
  runs rest eof p nl sc hrest hsc :=
    ⟨sc, hsc, .nil (bind_ok (accept_of_ne (hrest.1.comma rfl)) rfl)⟩

theorem MoreItems.ends {rest : List Token} {eof : Token} (h : MoreItems item ts es v v')
    (hrest : Ends 0 (rest.headD eof).kind) : Ends 1 ((ts ++ rest).headD eof).kind := by
  cases ts with
  | nil => exact hrest.mono (by omega)
  | cons t ts =>
    rw [List.cons_append, List.headD_cons, h.comma t rfl]
    exact ⟨stops_comma, by decide⟩

theorem MoreItems.cons (ht : t.kind = .punct .comma) (he : Rereads item (Ends 1) ts e v v₁)
    (h : MoreItems item us es v₁ v') : MoreItems item ([t] ++ ts ++ us) (e :: es) v v' where
  comma := by simp [ht]
  runs rest eof p nl sc hrest hsc := by
    obtain ⟨sc₁, hsc₁, hrun⟩ := he (us ++ rest) eof t.span nl (h.ends hrest) hsc
    obtain ⟨sc', hsc', hruns⟩ := h.runs rest eof (spanAfter t.span ts) nl hrest hsc₁
    refine ⟨sc', hsc', ?_⟩
    rw [List.append_assoc, List.append_assoc, spanAfter_append, spanAfter_append, spanAfter_cons,
      spanAfter_nil]
    refine .cons (bind_ok (accept_of_eq ht) (bind_ok hrun rfl)) ?_ hruns
    simp only [List.length_append, List.length_singleton]
    omega

theorem MoreItems.commaSeparated (he : Rereads item (Ends 1) ts e v v₁)
    (h : MoreItems item us es v₁ v') :
    Rereads (commaSeparated item) (Ends 0) (ts ++ us) (e :: es) v v' := by
  intro rest eof p nl sc hrest hsc
  obtain ⟨sc₁, hsc₁, hrun⟩ := he (us ++ rest) eof p nl (h.ends hrest) hsc
  obtain ⟨sc', hsc', hruns⟩ := h.runs rest eof (spanAfter p ts) nl hrest hsc₁
  refine ⟨sc', hsc', ?_⟩
  rw [List.append_assoc, spanAfter_append]
  exact bind_ok hrun (bind_ok hruns.many_eq rfl)

theorem rereads_noArguments : Rereads (arguments item) (· = .punct .rightParen) [] [] v v :=
  fun _ _ _ _ sc hrest hsc => ⟨sc, hsc, bind_ok (check_of_eq hrest) rfl⟩

theorem rereads_arguments (ht : t.kind ≠ .punct .rightParen)
    (h : Rereads (commaSeparated item) (Ends 0) (t :: ts) es v v') :
    Rereads (arguments item) (· = .punct .rightParen) (t :: ts) es v v' := by
  intro rest eof p nl sc hrest hsc
  obtain ⟨sc', hsc', hrun⟩ := h rest eof p nl (ends_of_closer (.inl hrest)) hsc
  exact ⟨sc', hsc', bind_ok (check_of_ne ht) hrun⟩

theorem rereads_comma (h : Rereads (commaSeparated item) (Ends 0) (t :: ts) (e :: f :: es) v v') :
    Rereads (sequenceForm item) (Ends 0) (t :: ts)
      (.comma (e :: f :: es) (e.span.merge (spanAfter t.span ts))) v v' := by
  intro rest eof p nl sc hrest hsc
  obtain ⟨sc', hsc', hrun⟩ := h rest eof p nl hrest hsc
  rw [spanAfter_cons] at hrun ⊢
  exact ⟨sc', hsc', bind_ok hrun (bind_ok rfl rfl)⟩

end Items

section Operators

variable {operand nested argument : Parser Expr}

theorem rereads_prefixed {op : UnaryOp} (hop : prefixOp? t.kind = some op)
    (h : Rereads operand F ts e v v') :
    Rereads (unaryForm operand nested argument) F ([t] ++ ts)
      (.unary op e (t.span.merge e.span)) v v' := by
  intro rest eof p nl sc hrest hsc
  obtain ⟨sc', hsc', hrun⟩ := h rest eof t.span nl hrest hsc
  refine ⟨sc', hsc', bind_ok current_cons ?_⟩
  rw [hop, List.singleton_append, spanAfter_cons]
  exact bind_ok advance_cons (bind_ok hrun rfl)

/-- The first token behind a parenthesis begins a type or does not. -/
def TypeAhead (b : Bool) (v : Scopes.Names) (ts : List Token) : Prop :=
  ∃ t ∈ ts.head?, ∀ sc : Scopes, sc.names = v → startsType sc t = b

theorem TypeAhead.append {b : Bool} (h : TypeAhead b v ts) (us : List Token) :
    TypeAhead b v (ts ++ us) := by
  obtain ⟨t, ht, htype⟩ := h
  exact ⟨t, by rw [Option.mem_def, List.head?_append, ht]; rfl, htype⟩

theorem TypeAhead.headD {b : Bool} {sc : Scopes} (h : TypeAhead b v ts) (hsc : sc.names = v)
    (rest : List Token) (eof : Token) : startsType sc ((ts ++ rest).headD eof) = b := by
  obtain ⟨t, ht, htype⟩ := h
  obtain ⟨us, rfl⟩ := List.head?_eq_some_iff.mp ht
  exact htype sc hsc

theorem rereads_cast {type : String} (ht : t.kind = .punct .leftParen)
    (hu : u.kind = .punct .rightParen) (hahead : TypeAhead true v (ts ++ [u]))
    (htype : Rereads typeName (· = .punct .rightParen) ts type v v₁)
    (h : Rereads operand F us e v₁ v') :
    Rereads (unaryForm operand nested argument) F ([t] ++ ts ++ [u] ++ us)
      (.cast type e (t.span.merge e.span)) v v' := by
  intro rest eof p nl sc hrest hsc
  obtain ⟨sc₁, hsc₁, hname⟩ := htype (u :: (us ++ rest)) eof t.span nl hu hsc
  obtain ⟨sc', hsc', hrun⟩ := h rest eof u.span nl hrest hsc₁
  refine ⟨sc', hsc', ?_⟩
  have hfollows := hahead.headD hsc (us ++ rest) eof
  simp only [List.append_assoc, List.cons_append, List.nil_append] at hfollows ⊢
  refine bind_ok current_cons ?_
  simp only [ht, prefixOp?, if_true, reduceCtorEq, if_false]
  rw [bind_eq typeFollows_eq, List.tail_cons, hfollows]
  exact bind_ok currentSpan_cons (bind_ok advance_cons (bind_ok hname
    (bind_ok (expect_of_eq hu) (bind_ok hrun (by simp; rfl)))))

theorem unaryForm_of_sizeof {rest : List Token} {eof : Token} {p : Span} {sc : Scopes} {nl : Nat}
    (ht : t.kind = .word .kwSizeof) :
    unaryForm operand nested argument ⟨t :: rest, .ok eof, p, sc, nl⟩ =
      sizeofForm operand ⟨t :: rest, .ok eof, p, sc, nl⟩ := by
  rw [unaryForm, bind_eq current_cons]
  simp only [ht, prefixOp?, if_true]

theorem rereads_sizeOfType {w : Token} {type : String} (ht : t.kind = .word .kwSizeof)
    (hu : u.kind = .punct .leftParen) (hw : w.kind = .punct .rightParen)
    (hahead : TypeAhead true v (ts ++ [w]))
    (htype : Rereads typeName (· = .punct .rightParen) ts type v v') :
    Rereads (unaryForm operand nested argument) F ([t] ++ [u] ++ ts ++ [w])
      (.sizeOfType (t.span.merge w.span)) v v' := by
  intro rest eof p nl sc _ hsc
  obtain ⟨sc', hsc', hname⟩ := htype (w :: rest) eof u.span nl hw hsc
  refine ⟨sc', hsc', ?_⟩
  have hfollows := hahead.headD hsc rest eof
  simp only [List.append_assoc, List.cons_append, List.nil_append, spanAfter_cons,
    spanAfter_append, spanAfter_nil] at hfollows ⊢
  refine (unaryForm_of_sizeof ht).trans (bind_ok currentSpan_cons (bind_ok advance_cons
    (bind_ok (check_of_eq hu) (bind_ok typeFollows_eq ?_))))
  rw [List.tail_cons, hfollows]
  exact bind_ok advance_cons (bind_ok hname (bind_ok (expect_of_eq hw) (bind_ok rfl rfl)))

theorem rereads_sizeOf (ht : t.kind = .word .kwSizeof)
    (hahead : u.kind = .punct .leftParen → TypeAhead false v ts)
    (h : Rereads operand F (u :: ts) e v v') :
    Rereads (unaryForm operand nested argument) F ([t] ++ u :: ts)
      (.sizeOf e (t.span.merge e.span)) v v' := by
  intro rest eof p nl sc hrest hsc
  obtain ⟨sc', hsc', hrun⟩ := h rest eof t.span nl hrest hsc
  refine ⟨sc', hsc', ?_⟩
  simp only [List.cons_append, List.nil_append, spanAfter_cons] at hrun ⊢
  refine (unaryForm_of_sizeof ht).trans (bind_ok currentSpan_cons (bind_ok advance_cons ?_))
  by_cases hu : u.kind = .punct .leftParen
  · refine bind_ok (check_of_eq hu) (bind_ok typeFollows_eq ?_)
    rw [List.tail_cons, (hahead hu).headD hsc]
    exact bind_ok hrun rfl
  · exact bind_ok (check_of_ne hu) (bind_ok hrun rfl)

theorem rereads_binary {op : BinaryOp} {l : Nat} (hop : binaryOp? l t.kind = some op)
    (h : Rereads operand F ts f v v') :
    Rereads (binaryForm.step operand l e) F ([t] ++ ts)
      (some (.binary op e f (e.span.merge f.span))) v v' := by
  intro rest eof p nl sc hrest hsc
  obtain ⟨sc', hsc', hrun⟩ := h rest eof t.span nl hrest hsc
  refine ⟨sc', hsc', bind_ok (currentKind_of_eq rfl) ?_⟩
  rw [hop, List.singleton_append, spanAfter_cons]
  exact bind_ok advance_cons (bind_ok hrun rfl)

theorem rereads_conditional {test otherwise : Parser Expr} {g : Expr}
    (ht : t.kind = .punct .question) (hu : u.kind = .punct .colon)
    (he : Rereads test (Ends 3) ts e v v₁) (hf : Rereads nested (Ends 0) us f v₁ v₂)
    (hg : Rereads otherwise F vs g v₂ v') :
    Rereads (conditionalForm test nested otherwise) F (ts ++ ([t] ++ us ++ [u]) ++ vs)
      (.conditional e f g (e.span.merge g.span)) v v' := by
  intro rest eof p nl sc hrest hsc
  obtain ⟨sc₁, hsc₁, hrun⟩ := he (t :: (us ++ u :: (vs ++ rest))) eof p nl
    ⟨ht ▸ stops_question, by simp [ht]⟩ hsc
  obtain ⟨sc₂, hsc₂, hrun'⟩ := hf (u :: (vs ++ rest)) eof t.span nl
    (ends_of_closer (.inr (.inr (.inl hu)))) hsc₁
  obtain ⟨sc', hsc', hrun''⟩ := hg rest eof u.span nl hrest hsc₂
  refine ⟨sc', hsc', ?_⟩
  simp only [List.append_assoc, List.cons_append, List.nil_append, spanAfter_append,
    spanAfter_cons]
  exact bind_ok hrun (bind_ok (accept_of_eq ht) (bind_ok hrun' (bind_ok (expect_of_eq hu)
    (bind_ok hrun'' rfl))))

theorem rereads_assign {target value : Parser Expr} {op : AssignOp}
    (hop : assignOp? t.kind = some op) (he : Rereads target (Ends 2) ts e v v₁)
    (hf : Rereads value F us f v₁ v') :
    Rereads (assignmentForm target value) F (ts ++ [t] ++ us)
      (.assign op e f (e.span.merge f.span)) v v' := by
  intro rest eof p nl sc hrest hsc
  have hstop : Ends 2 t.kind := by
    cases hk : t.kind with
    | punct q => exact ⟨stops_assign (hk ▸ hop), by simp⟩
    | _ => simp [hk, assignOp?] at hop
  obtain ⟨sc₁, hsc₁, hrun⟩ := he (t :: (us ++ rest)) eof p nl hstop hsc
  obtain ⟨sc', hsc', hrun'⟩ := hf rest eof t.span nl hrest hsc₁
  refine ⟨sc', hsc', ?_⟩
  simp only [List.append_assoc, List.cons_append, List.nil_append, spanAfter_append,
    spanAfter_cons]
  refine bind_ok hrun (bind_ok (currentKind_of_eq rfl) ?_)
  rw [hop]
  exact bind_ok advance_cons (bind_ok hrun' rfl)

end Operators

section Builds

variable {first : Parser Expr} {step : Expr → Parser (Option Expr)}

/-- Wherever the tokens stand before one whose kind is allowed, they are read as `e` by `first`
and then by `step`, again and again. -/
def Builds (first : Parser Expr) (step : Expr → Parser (Option Expr)) (F : Token.Kind → Prop)
    (ts : List Token) (e : Expr) (v v' : Scopes.Names) : Prop :=
  ∀ (rest : List Token) (eof : Token) (p : Span) (nl : Nat) ⦃sc : Scopes⦄,
    F (rest.headD eof).kind → sc.names = v → ∃ a s sc', sc'.names = v' ∧
      first ⟨ts ++ rest, .ok eof, p, sc, nl⟩ = .ok (a, s) ∧
      Steps step a s e ⟨rest, .ok eof, spanAfter p ts, sc', nl⟩

theorem Rereads.builds (h : Rereads first F ts e v v') : Builds first step F ts e v v' := by
  intro rest eof p nl sc hrest hsc
  obtain ⟨sc', hsc', hrun⟩ := h rest eof p nl hrest hsc
  exact ⟨e, _, sc', hsc', hrun, .refl⟩

theorem Builds.snoc (h : Builds first step F ts e v v₁) (hu : F u.kind)
    (h' : Rereads (step e) G (u :: us) (some f) v₁ v') :
    Builds first step G (ts ++ u :: us) f v v' := by
  intro rest eof p nl sc hrest hsc
  obtain ⟨a, s, sc₁, hsc₁, hfirst, hsteps⟩ := h (u :: us ++ rest) eof p nl hu hsc
  obtain ⟨sc', hsc', hstep⟩ := h' rest eof (spanAfter p ts) nl hrest hsc₁
  refine ⟨a, s, sc', hsc', ?_, ?_⟩
  · rw [List.append_assoc, hfirst]
  · rw [spanAfter_append]
    refine hsteps.tail hstep ?_
    simp only [List.cons_append, List.length_cons, List.length_append]
    omega

end Builds

section Tiers

/-- Tokens that begin with no pragma, and do not end with a parenthesis they begin with. -/
def Begins (ts : List Token) : Prop :=
  ∃ t us, ts = t :: us ∧ t.kind ≠ .pragma ∧ (t.kind = .punct .leftParen → us ≠ [])

theorem Begins.append (h : Begins ts) (us : List Token) : Begins (ts ++ us) := by
  obtain ⟨t, vs, rfl, hpragma, hne⟩ := h
  exact ⟨t, vs ++ us, rfl, hpragma, fun ht => List.append_ne_nil_of_left_ne_nil (hne ht) us⟩

theorem Begins.pos (h : Begins ts) : 0 < ts.length := by
  obtain ⟨t, us, rfl, -⟩ := h
  exact Nat.succ_pos _

/-- The tokens are read again as `e` in form `k`, given fuel for each of them. -/
structure Back (k : Nat) (ts : List Token) (e : Expr) (v v' : Scopes.Names) : Prop where
  begins : Begins ts
  rereads : ∀ n, 16 * ts.length ≤ n + k → Rereads (form n (formAt k)) (Ends k) ts e v v'

theorem Back.loosen {k : Nat} (h : Back (k + 1) ts e v v') (hk : k < 13) : Back k ts e v v' where
  begins := h.begins
  rereads n hn rest eof p nl sc hrest hsc := by
    have hpos := h.begins.pos
    obtain ⟨n, rfl⟩ : ∃ m, n = m + 1 := ⟨n - 1, by omega⟩
    obtain ⟨sc', hsc', hrun⟩ :=
      h.rereads n (by omega) rest eof p nl (hrest.mono (by omega)) hsc
    exact ⟨sc', hsc', form_of_form_succ hk hrun hrest.1⟩

theorem Back.mono {k k' : Nat} (h : Back k' ts e v v') (hk : k ≤ k') (hk' : k' ≤ 13) :
    Back k ts e v v' := by
  obtain ⟨d, rfl⟩ := Nat.exists_eq_add_of_le hk
  induction d with
  | zero => exact h
  | succ d ih => exact ih (Back.loosen (k := k + d) h (by omega)) (by omega) (by omega)

/-- The tokens begin with a literal, a name, or a parenthesis before no type. -/
def Plain (v : Scopes.Names) (ts : List Token) : Prop :=
  ∃ t us, ts = t :: us ∧ (t.kind ∈ [.integer, .float, .char, .string, .identifier] ∨
    t.kind = .punct .leftParen ∧ TypeAhead false v us)

theorem Plain.append (h : Plain v ts) (us : List Token) : Plain v (ts ++ us) := by
  obtain ⟨t, vs, rfl, hkind⟩ := h
  exact ⟨t, vs ++ us, rfl, hkind.imp_right fun hparen => ⟨hparen.1, hparen.2.append us⟩⟩

theorem Plain.begins (h : Plain v ts) : Begins ts := by
  obtain ⟨t, us, rfl, ht | ⟨ht, u, hu, -⟩⟩ := h
  · exact ⟨t, us, rfl, fun hk => by simp [hk] at ht, fun hk => by simp [hk] at ht⟩
  · refine ⟨t, us, rfl, by simp [ht], fun _ hus => ?_⟩
    rw [hus] at hu
    cases hu

theorem Plain.unaryForm_eq {operand nested argument : Parser Expr} {rest : List Token} {eof : Token}
    {p : Span} {sc : Scopes} {nl : Nat} (h : Plain v ts) (hsc : sc.names = v) :
    unaryForm operand nested argument ⟨ts ++ rest, .ok eof, p, sc, nl⟩ =
      postfixForm nested argument ⟨ts ++ rest, .ok eof, p, sc, nl⟩ := by
  obtain ⟨t, us, rfl, ht | ⟨ht, hahead⟩⟩ := h
  · simp only [List.mem_cons, List.not_mem_nil, or_false] at ht
    apply unaryForm_of_ne <;> rcases ht with ht | ht | ht | ht | ht <;> simp [ht, prefixOp?]
  · exact unaryForm_of_paren ht (hahead.headD hsc rest eof)

/-- The tokens are read again as a primary expression and suffixes, which make `e` so far. -/
structure Suffixed (ts : List Token) (e : Expr) (v v' : Scopes.Names) : Prop where
  plain : Plain v ts
  builds : ∀ n, 16 * ts.length ≤ n + 15 → Builds (primary (form n .sequence))
    (postfixStep (form n .sequence) (form n .assignment)) (· ≠ .string) ts e v v'

theorem Suffixed.back (h : Suffixed ts e v v') : Back 13 ts e v v' where
  begins := h.plain.begins
  rereads n hn rest eof p nl sc hrest hsc := by
    have hpos := h.plain.begins.pos
    obtain ⟨n, rfl⟩ : ∃ m, n = m + 2 := ⟨n - 2, by omega⟩
    obtain ⟨a, s, sc', hsc', hfirst, hsteps⟩ :=
      h.builds n (by omega) rest eof p nl hrest.2 hsc
    have hextend := hsteps.extend_eq (postfixStep_of_stops hrest.1.suffix)
    cases hchain : e.subscriptChain? with
    | none =>
      refine ⟨sc', hsc', (h.plain.unaryForm_eq hsc).trans (bind_ok hfirst (bind_ok hextend ?_))⟩
      rw [hchain]
      rfl
    | some c =>
      refine ⟨sc'.refine c.1 (.array c.2), (sc'.names_refine c.1 _).trans hsc',
        (h.plain.unaryForm_eq hsc).trans (bind_ok hfirst (bind_ok hextend ?_))⟩
      rw [hchain]
      rfl

/-- The tokens are read again as a first operand and operators of strength `l` with further
operands, which make `e` so far. -/
structure Chained (l : Nat) (ts : List Token) (e : Expr) (v v' : Scopes.Names) : Prop where
  begins : Begins ts
  builds : ∀ n, 16 * ts.length ≤ n + (l + 4) → Builds (form n (.binary (l + 1)))
    (binaryForm.step (form n (.binary (l + 1))) l) (Ends (l + 4)) ts e v v'

theorem Back.chained {l : Nat} (h : Back (l + 4) ts e v v') : Chained l ts e v v' where
  begins := h.begins
  builds n hn := (h.rereads n hn).builds

theorem Chained.back {l : Nat} (h : Chained l ts e v v') (hl : l < 10) :
    Back (l + 3) ts e v v' where
  begins := h.begins
  rereads n hn rest eof p nl sc hrest hsc := by
    have hpos := h.begins.pos
    obtain ⟨n, rfl⟩ : ∃ m, n = m + 1 := ⟨n - 1, by omega⟩
    obtain ⟨a, s, sc', hsc', hfirst, hsteps⟩ :=
      h.builds n (by omega) rest eof p nl (hrest.mono (by omega)) hsc
    refine ⟨sc', hsc', ?_⟩
    rw [formAt, form, if_pos (show l < binaryLevels from hl)]
    exact bind_ok hfirst (hsteps.extend_eq (step_of_stops (hrest.1.binary l (by omega))))

theorem Chained.snoc {l : Nat} {op : BinaryOp} (he : Chained l ts e v v₁)
    (hop : binaryOp? l t.kind = some op) (hf : Back (l + 4) us f v₁ v') :
    Chained l (ts ++ [t] ++ us) (.binary op e f (e.span.merge f.span)) v v' where
  begins := (he.begins.append _).append _
  builds n hn := by
    have hpos := he.begins.pos
    simp only [List.length_append, List.length_singleton] at hn
    have hend : Ends (l + 4) t.kind := by
      obtain ⟨hk, rfl⟩ := binaryOp?_eq_some.mp hop
      rw [hk]
      exact ⟨stops_binary op, by simp⟩
    rw [List.append_assoc, List.singleton_append]
    exact (he.builds n (by omega)).snoc hend (rereads_binary hop (hf.rereads n (by omega)))

end Tiers

section Rules

theorem suffixed_leaf (ht : t.kind ∈ [.integer, .float, .char, .string, .identifier])
    (h : ∀ nested, Rereads (primary nested) (· ≠ .string) (t :: ts) e v v') :
    Suffixed (t :: ts) e v v' where
  plain := ⟨t, ts, rfl, .inl ht⟩
  builds _ _ := (h _).builds

theorem suffixed_paren (ht : t.kind = .punct .leftParen) (hu : u.kind = .punct .rightParen)
    (hahead : TypeAhead false v ts) (h : Back 0 ts e v v') :
    Suffixed ([t] ++ ts ++ [u]) (e.withSpan (t.span.merge u.span)) v v' where
  plain := ⟨t, ts ++ [u], rfl, .inr ⟨ht, hahead.append [u]⟩⟩
  builds n hn := by
    simp only [List.length_append, List.length_singleton] at hn
    exact (rereads_paren ht hu (h.rereads n (by omega))).builds

theorem Suffixed.snoc (h : Suffixed ts e v v₁) (hu : u.kind ≠ .string)
    (h' : ∀ n, 16 * (u :: us).length ≤ n →
      Rereads (postfixStep (form n .sequence) (form n .assignment) e) (· ≠ .string) (u :: us)
        (some f) v₁ v') : Suffixed (ts ++ u :: us) f v v' where
  plain := h.plain.append _
  builds n hn := by
    have hpos := h.plain.begins.pos
    rw [List.length_append] at hn
    exact (h.builds n (by omega)).snoc hu (h' n (by omega))

theorem Suffixed.subscript (h : Suffixed ts e v v₁) (ht : t.kind = .punct .leftBracket)
    (hu : u.kind = .punct .rightBracket) (hf : Back 0 us f v₁ v') :
    Suffixed (ts ++ ([t] ++ us ++ [u])) (.subscript e f (e.span.merge u.span)) v v' := by
  refine h.snoc (by simp [ht]) fun n hn => rereads_subscript ht hu (hf.rereads n ?_)
  simp only [List.append_eq, List.length_cons, List.length_append, List.length_nil] at hn
  omega

theorem Suffixed.call {as : List Expr} (h : Suffixed ts e v v₁) (ht : t.kind = .punct .leftParen)
    (hu : u.kind = .punct .rightParen)
    (has : ∀ n, 16 * us.length ≤ n + 1 →
      Rereads (arguments (form n .assignment)) (· = .punct .rightParen) us as v₁ v') :
    Suffixed (ts ++ ([t] ++ us ++ [u])) (.call e as (e.span.merge u.span)) v v' := by
  refine h.snoc (by simp [ht]) fun n hn => rereads_call ht hu (has n ?_)
  simp only [List.append_eq, List.length_cons, List.length_append, List.length_nil] at hn
  omega

theorem Suffixed.member {sc₀ : Scopes} {arrow : Bool} (h : Suffixed ts e v sc₀.names)
    (ht : t.kind = .punct (if arrow then .arrow else .dot)) (hu : u.kind = .identifier) :
    Suffixed (ts ++ [t, u]) (.field e (sc₀.member u.lexeme).1 arrow (e.span.merge u.span)) v
      (sc₀.member u.lexeme).2.names :=
  h.snoc (by simp [ht]) fun _ _ => rereads_member ht hu

theorem Suffixed.postOp {op : UnaryOp} (h : Suffixed ts e v v') (hop : op.isPostfix = true)
    (ht : t.kind = .punct op.punct) :
    Suffixed (ts ++ [t]) (.unary op e (e.span.merge t.span)) v v' :=
  h.snoc (by simp [ht]) fun _ _ => rereads_postOp hop ht

def Listed (ts : List Token) (es : List Expr) (v v' : Scopes.Names) : Prop :=
  ∀ n, 16 * ts.length ≤ n → MoreItems (form n .assignment) ts es v v'

theorem listed_nil : Listed [] [] v v := fun _ _ => moreItems_nil

theorem Listed.cons {es : List Expr} (ht : t.kind = .punct .comma) (he : Back 1 ts e v v₁)
    (h : Listed us es v₁ v') : Listed ([t] ++ ts ++ us) (e :: es) v v' := by
  intro n hn
  simp only [List.length_append, List.length_singleton] at hn
  exact .cons ht (he.rereads n (by omega)) (h n (by omega))

theorem Listed.commaSeparated {es : List Expr} (he : Back 1 ts e v v₁) (h : Listed us es v₁ v')
    (n : Nat) (hn : 16 * (ts ++ us).length ≤ n + 1) :
    Rereads (commaSeparated (form n .assignment)) (Ends 0) (ts ++ us) (e :: es) v v' := by
  have hpos := he.begins.pos
  rw [List.length_append] at hn
  exact (h n (by omega)).commaSeparated (he.rereads n (by omega))

theorem Listed.back {es : List Expr} (he : Back 1 ts e v v₁) (h : Listed us (f :: es) v₁ v')
    (p : Span) :
    Back 0 (ts ++ us) (.comma (e :: f :: es) (e.span.merge (spanAfter p (ts ++ us)))) v v' where
  begins := he.begins.append us
  rereads n hn := by
    obtain ⟨t, ts, rfl, -⟩ := he.begins
    obtain ⟨n, rfl⟩ : ∃ m, n = m + 1 := ⟨n - 1, by simp at hn; omega⟩
    have hcomma := rereads_comma (h.commaSeparated he n (by omega))
    rwa [List.cons_append, spanAfter_cons]

theorem back_unary (hbegins : Begins ts)
    (h : ∀ n, 16 * ts.length ≤ n + 15 → Rereads
      (unaryForm (form n .unary) (form n .sequence) (form n .assignment)) (Ends 13) ts e v v') :
    Back 13 ts e v v' where
  begins := hbegins
  rereads n hn := by
    have hpos := hbegins.pos
    obtain ⟨n, rfl⟩ : ∃ m, n = m + 2 := ⟨n - 2, by omega⟩
    exact h n (by omega)

theorem Back.operand (h : Back 13 ts e v v') {n : Nat} (hn : 16 * ts.length ≤ n + 14) :
    Rereads (form n .unary) (Ends 13) ts e v v' :=
  h.rereads (n + 1) (by omega)

theorem back_prefixed {op : UnaryOp} (hop : prefixOp? t.kind = some op) (h : Back 13 ts e v v') :
    Back 13 ([t] ++ ts) (.unary op e (t.span.merge e.span)) v v' := by
  have hbegins : Begins ([t] ++ ts) :=
    ⟨t, ts, rfl, fun ht => by simp [ht, prefixOp?] at hop,
      fun ht => by simp [ht, prefixOp?] at hop⟩
  refine back_unary hbegins fun n hn => ?_
  rw [List.length_append, List.length_singleton] at hn
  exact rereads_prefixed hop (h.operand (by omega))

theorem back_cast {type : String} (ht : t.kind = .punct .leftParen)
    (hu : u.kind = .punct .rightParen) (hahead : TypeAhead true v (ts ++ [u]))
    (htype : Rereads typeName (· = .punct .rightParen) ts type v v₁) (h : Back 13 us e v₁ v') :
    Back 13 ([t] ++ ts ++ [u] ++ us) (.cast type e (t.span.merge e.span)) v v' := by
  refine back_unary ⟨t, ts ++ [u] ++ us, by simp, by simp [ht], fun _ => by simp⟩ fun n hn => ?_
  simp only [List.length_append, List.length_singleton] at hn
  exact rereads_cast ht hu hahead htype (h.operand (by omega))

theorem back_sizeOfType {w : Token} {type : String} (ht : t.kind = .word .kwSizeof)
    (hu : u.kind = .punct .leftParen) (hw : w.kind = .punct .rightParen)
    (hahead : TypeAhead true v (ts ++ [w]))
    (htype : Rereads typeName (· = .punct .rightParen) ts type v v') :
    Back 13 ([t] ++ [u] ++ ts ++ [w]) (.sizeOfType (t.span.merge w.span)) v v' :=
  back_unary ⟨t, [u] ++ ts ++ [w], by simp, by simp [ht], fun _ => by simp⟩ fun _ _ =>
    rereads_sizeOfType ht hu hw hahead htype

theorem back_sizeOf (ht : t.kind = .word .kwSizeof)
    (hahead : ∀ u us, ts = u :: us → u.kind = .punct .leftParen → TypeAhead false v us)
    (h : Back 13 ts e v v') : Back 13 ([t] ++ ts) (.sizeOf e (t.span.merge e.span)) v v' := by
  refine back_unary ⟨t, ts, rfl, by simp [ht], fun hk => by simp [ht] at hk⟩ fun n hn => ?_
  rw [List.length_append, List.length_singleton] at hn
  have hoperand := h.operand (n := n) (by omega)
  obtain ⟨u, us, rfl, -⟩ := h.begins
  exact rereads_sizeOf ht (hahead u us rfl) hoperand

theorem back_conditional {g : Expr} (ht : t.kind = .punct .question) (hu : u.kind = .punct .colon)
    (he : Back 3 ts e v v₁) (hf : Back 0 us f v₁ v₂) (hg : Back 2 vs g v₂ v') :
    Back 2 (ts ++ ([t] ++ us ++ [u]) ++ vs) (.conditional e f g (e.span.merge g.span)) v v' where
  begins := (he.begins.append _).append _
  rereads n hn := by
    have hpos := he.begins.pos
    simp only [List.length_append, List.length_singleton] at hn
    obtain ⟨n, rfl⟩ : ∃ m, n = m + 1 := ⟨n - 1, by omega⟩
    exact rereads_conditional ht hu (he.rereads n (by omega)) (hf.rereads n (by omega))
      (hg.rereads n (by omega))

theorem back_assign {op : AssignOp} (hop : assignOp? t.kind = some op) (he : Back 2 ts e v v₁)
    (hf : Back 1 us f v₁ v') :
    Back 1 (ts ++ [t] ++ us) (.assign op e f (e.span.merge f.span)) v v' where
  begins := (he.begins.append _).append _
  rereads n hn := by
    have hpos := he.begins.pos
    simp only [List.length_append, List.length_singleton] at hn
    obtain ⟨n, rfl⟩ : ∃ m, n = m + 1 := ⟨n - 1, by omega⟩
    exact rereads_assign hop (he.rereads n (by omega)) (hf.rereads n (by omega))

end Rules

end Grammar

end LoopLegality

import LoopLegality.Proofs.Reading

namespace LoopLegality.Grammar

open Lexeme

variable {eof t : Token} {sc : Scopes} {nl : Nat} {ts : List Token} {p : Span}

section Primary

variable {ws : List Lexeme} {e : Expr} {place : Span} {operand nested argument : Parser Expr}

theorem unaryForm_of_ne (hop : prefixOp? t.kind = none) (hsizeof : t.kind ≠ .word .kwSizeof)
    (hparen : t.kind ≠ .punct .leftParen) :
    unaryForm operand nested argument ⟨t :: ts, .ok eof, p, sc, nl⟩ =
      postfixForm nested argument ⟨t :: ts, .ok eof, p, sc, nl⟩ := by
  rw [unaryForm, bind_eq current_cons]
  simp only [hop, if_neg hsizeof, if_neg hparen]

theorem unaryForm_of_paren (hparen : t.kind = .punct .leftParen)
    (htype : startsType sc (ts.headD eof) = false) :
    unaryForm operand nested argument ⟨t :: ts, .ok eof, p, sc, nl⟩ =
      postfixForm nested argument ⟨t :: ts, .ok eof, p, sc, nl⟩ := by
  rw [unaryForm, bind_eq current_cons]
  simp only [hparen, prefixOp?, if_true, reduceCtorEq, if_false]
  rw [bind_eq typeFollows_eq, List.tail_cons, htype]
  rfl

theorem starts_number {n : Nat} (hn : Word.Fits n) : Starts sc [.number n] (.int n place) where
  opening := ⟨_, rfl, trivial⟩
  steps m ts rest eof p nl hm hts := by
    obtain ⟨t, rfl, hkind, htext⟩ := spells_singleton hts
    refine ⟨.int n t.span, ⟨rest, .ok eof, t.span, sc, nl⟩, _, t.span, ?_, ?_, .refl, rfl⟩
    · exact unaryForm_of_ne (by rw [hkind]; rfl) (by simp [hkind, kind]) (by simp [hkind, kind])
    · refine bind_ok (currentKind_of_eq hkind) (bind_ok current_cons ?_)
      rw [htext, text, Literal.integer?_toString hn]
      exact bind_ok advance_cons rfl

theorem starts_name {s : String} {x : Symbol} (hx : sc.lookup? s = some x) :
    Starts sc [.name s] (.ident x place) where
  opening := ⟨_, rfl, by simp [Opens, hx]⟩
  steps m ts rest eof p nl hm hts := by
    obtain ⟨t, rfl, hkind, htext⟩ := spells_singleton hts
    have hresolve (k : Symbol.Kind) : sc.resolve t.lexeme k = (x, sc) := by
      rw [htext, text, Scopes.resolve, hx]
    refine ⟨.ident x t.span, ⟨rest, .ok eof, t.span, sc, nl⟩, _, t.span, ?_, ?_, .refl, rfl⟩
    · exact unaryForm_of_ne (by rw [hkind]; rfl) (by simp [hkind, kind]) (by simp [hkind, kind])
    · exact bind_ok (currentKind_of_eq hkind) (bind_ok current_cons (bind_ok peek_eq
        (bind_ok advance_cons (bind_ok (bindName_of_eq (hresolve _)) rfl))))

theorem Reads.paren (h : Reads sc 0 ws e) :
    Starts sc (.punct .leftParen :: (ws ++ [.punct .rightParen])) e where
  opening := ⟨_, rfl, by simp [Opens]⟩
  steps n ts rest eof p nl hn hts := by
    obtain ⟨t, us, rfl, hleft, -, hus⟩ := spells_cons hts
    obtain ⟨vs, us, rfl, hvs, hu⟩ := spells_append hus
    obtain ⟨u, rfl, hright, -⟩ := spells_singleton hu
    simp only [List.length_cons, List.length_append, List.length_nil] at hn
    obtain ⟨e', p', hrun, he⟩ := h.parses n vs (u :: rest) eof t.span nl (by omega) hvs
      (stops_of_closer (Or.inl hright))
    rw [List.cons_append, List.append_assoc]
    refine ⟨e'.withSpan (t.span.merge u.span), ⟨rest, .ok eof, u.span, sc, nl⟩, _, u.span,
      ?_, ?_, .refl, by rw [Expr.erase_withSpan, he]⟩
    · exact unaryForm_of_paren hleft (h.opening.startsType hvs)
    · exact bind_ok (currentKind_of_eq hleft) (bind_ok currentSpan_cons (bind_ok advance_cons
        (bind_ok hrun (bind_ok (expect_of_eq hright) (bind_ok rfl rfl)))))

end Primary

section Suffix

variable {ws us : List Lexeme} {e f : Expr} {place : Span}

theorem Starts.snoc (h : Starts sc ws e) (hus : us ≠ [])
    (hstep : ∀ (n : Nat) (ts rest : List Token) (eof : Token) (p : Span) (nl : Nat) (b : Expr),
      16 * us.length ≤ n → List.Forall₂ Spells us ts → b.erase = e.erase → ∃ f' p',
        postfixStep (form n .sequence) (form n .assignment) b ⟨ts ++ rest, .ok eof, p, sc, nl⟩ =
          .ok (some f', ⟨rest, .ok eof, p', sc, nl⟩) ∧ f'.erase = f.erase) :
    Starts sc (ws ++ us) f where
  opening := h.opening.append us
  steps n ts rest eof p nl hn hts := by
    obtain ⟨ts, vs, rfl, hts, hvs⟩ := spells_append hts
    have hpos := h.opening.pos
    rw [List.length_append] at hn
    obtain ⟨a, s₀, b, q, hform, hfirst, hsteps, hb⟩ :=
      h.steps n ts (vs ++ rest) eof p nl (by omega) hts
    obtain ⟨f', p', hlast, hf⟩ := hstep n vs rest eof q nl b (by omega) hvs hb
    have hlt : rest.length < (vs ++ rest).length := by
      rw [List.length_append, ← hvs.length_eq]
      have := List.length_pos_iff.mpr hus
      omega
    rw [List.append_assoc]
    exact ⟨a, s₀, f', p', hform, hfirst, hsteps.tail hlast hlt, hf⟩

theorem Starts.field {s : String} {m : Symbol} {arrow : Bool} (h : Starts sc ws e)
    (hm : sc.members.lookup s = some m) :
    Starts sc (ws ++ [.punct (if arrow then .arrow else .dot), .name s])
      (.field e m arrow place) := by
  refine h.snoc (by simp) fun n ts rest eof p nl b _ hts hb => ?_
  obtain ⟨t, us, rfl, hpunct, -, hus⟩ := spells_cons hts
  obtain ⟨u, rfl, hname, htext⟩ := spells_singleton hus
  have hmember : sc.member u.lexeme = (m, sc) := by rw [htext, text, Scopes.member, hm]
  refine ⟨.field b m arrow (b.span.merge u.span), u.span, ?_, by rw [Expr.erase, Expr.erase, hb]⟩
  cases arrow <;>
    exact bind_ok (currentKind_of_eq hpunct) (bind_ok advance_cons
      (bind_ok (expectName_of_eq hname) (bind_ok (bindName_of_eq hmember) (bind_ok rfl rfl))))

theorem Starts.subscript (h : Starts sc ws e) (hf : Reads sc 0 us f) :
    Starts sc (ws ++ .punct .leftBracket :: (us ++ [.punct .rightBracket]))
      (.subscript e f place) := by
  refine h.snoc (by simp) fun n ts rest eof p nl b hn hts hb => ?_
  obtain ⟨t, us, rfl, hleft, -, hus⟩ := spells_cons hts
  obtain ⟨vs, us, rfl, hvs, hu⟩ := spells_append hus
  obtain ⟨u, rfl, hright, -⟩ := spells_singleton hu
  simp only [List.length_cons, List.length_append, List.length_nil] at hn
  obtain ⟨f', q, hrun, hf'⟩ := hf.parses n vs (u :: rest) eof t.span nl (by omega) hvs
    (stops_of_closer (Or.inr (Or.inl hright)))
  rw [List.cons_append, List.append_assoc]
  exact ⟨.subscript b f' (b.span.merge u.span), u.span,
    bind_ok (currentKind_of_eq hleft) (bind_ok advance_cons (bind_ok hrun
      (bind_ok (expect_of_eq hright) (bind_ok rfl rfl)))),
    by rw [Expr.erase, Expr.erase, hb, hf']⟩

theorem Starts.postOp {op : UnaryOp} (h : Starts sc ws e) (hop : op.isPostfix = true) :
    Starts sc (ws ++ [.punct op.punct]) (.unary op e place) := by
  refine h.snoc (by simp) fun n ts rest eof p nl b _ hts hb => ?_
  obtain ⟨t, rfl, hpunct, -⟩ := spells_singleton hts
  refine ⟨.unary op b (b.span.merge t.span), t.span, ?_, by rw [Expr.erase, Expr.erase, hb]⟩
  cases op <;> cases hop <;>
    exact bind_ok (currentKind_of_eq hpunct) (bind_ok advance_cons (bind_ok rfl rfl))

end Suffix

section Items

variable {ws : List Lexeme} {e : Expr} {place : Span} {wss : List (List Lexeme)} {es : List Expr}

def joined : List (List Lexeme) → List Lexeme
  | [] => []
  | ws :: wss => ws ++ wss.flatMap (.punct .comma :: ·)

theorem stops_of_items {rest : List Token}
    (hts : List.Forall₂ Spells (wss.flatMap (.punct .comma :: ·)) ts)
    (hrest : Stops 0 (rest.headD eof).kind) : Stops 1 ((ts ++ rest).headD eof).kind := by
  cases wss with
  | nil =>
    cases hts
    exact hrest.mono (by omega)
  | cons =>
    obtain ⟨t, us, rfl, hcomma, -, -⟩ := spells_cons hts
    exact hcomma ▸ stops_comma

theorem runs_of_reads {n : Nat} {rest : List Token} (hes : List.Forall₂ (Reads sc 1) wss es)
    (hn : 16 * (wss.flatMap (.punct .comma :: ·)).length ≤ n)
    (hts : List.Forall₂ Spells (wss.flatMap (.punct .comma :: ·)) ts)
    (hrest : Stops 0 (rest.headD eof).kind) (p : Span) : ∃ es' p',
      Runs (do if ← accept (.punct .comma) then return some (← form n .assignment) else return none)
          ⟨ts ++ rest, .ok eof, p, sc, nl⟩ es' ⟨rest, .ok eof, p', sc, nl⟩ ∧
        Expr.eraseAll es' = Expr.eraseAll es := by
  induction hes generalizing ts p with
  | nil =>
    cases hts
    exact ⟨[], p, .nil (bind_ok (accept_of_ne (hrest.comma rfl)) rfl), rfl⟩
  | @cons ws e wss es he hes ih =>
    simp only [List.flatMap_cons, List.cons_append, List.length_cons, List.length_append] at hn hts
    obtain ⟨t, us, rfl, hcomma, -, hus⟩ := spells_cons hts
    obtain ⟨us, vs, rfl, hfirst, hvs⟩ := spells_append hus
    obtain ⟨e', q, hrun, he'⟩ := he.parses n us (vs ++ rest) eof t.span nl (by omega) hfirst
      (stops_of_items hvs hrest)
    obtain ⟨es', p', hruns, hes'⟩ := ih (by omega) hvs q
    refine ⟨e' :: es', p', ?_, by rw [Expr.eraseAll, Expr.eraseAll, he', hes']⟩
    rw [List.cons_append, List.append_assoc]
    refine .cons (bind_ok (accept_of_eq hcomma) (bind_ok hrun rfl)) ?_ hruns
    simp only [List.length_cons, List.length_append]
    omega

theorem commaSeparated_of_reads (he : Reads sc 1 ws e) (hes : List.Forall₂ (Reads sc 1) wss es)
    (n : Nat) (ts rest : List Token) (eof : Token) (p : Span) (nl : Nat)
    (hn : 16 * (joined (ws :: wss)).length ≤ n + 1)
    (hts : List.Forall₂ Spells (joined (ws :: wss)) ts) (hrest : Stops 0 (rest.headD eof).kind) :
    ∃ e' es' p', commaSeparated (form n .assignment) ⟨ts ++ rest, .ok eof, p, sc, nl⟩ =
        .ok (e' :: es', ⟨rest, .ok eof, p', sc, nl⟩) ∧
      Expr.eraseAll (e' :: es') = Expr.eraseAll (e :: es) := by
  have hpos := he.opening.pos
  rw [joined, List.length_append] at hn
  obtain ⟨us, vs, rfl, hus, hvs⟩ := spells_append hts
  rw [List.append_assoc]
  obtain ⟨e', q, hrun, he'⟩ := he.parses n us (vs ++ rest) eof p nl (by omega) hus
    (stops_of_items hvs hrest)
  obtain ⟨es', p', hruns, hes'⟩ := runs_of_reads (n := n) hes (by omega) hvs hrest q
  exact ⟨e', es', p', bind_ok hrun (bind_ok hruns.many_eq rfl), by
    rw [Expr.eraseAll, Expr.eraseAll, he', hes']⟩

theorem Starts.call (h : Starts sc ws e) (hes : List.Forall₂ (Reads sc 1) wss es) :
    Starts sc (ws ++ .punct .leftParen :: (joined wss ++ [.punct .rightParen]))
      (.call e es place) := by
  refine h.snoc (by simp) fun n ts rest eof p nl b hn hts hb => ?_
  obtain ⟨t, us, rfl, hleft, -, hus⟩ := spells_cons hts
  obtain ⟨vs, us, rfl, hvs, hu⟩ := spells_append hus
  obtain ⟨u, rfl, hright, -⟩ := spells_singleton hu
  simp only [List.length_cons, List.length_append, List.length_nil] at hn
  have hargs : ∃ es' q, arguments (form n .assignment) ⟨vs ++ u :: rest, .ok eof, t.span, sc, nl⟩ =
      .ok (es', ⟨u :: rest, .ok eof, q, sc, nl⟩) ∧ Expr.eraseAll es' = Expr.eraseAll es := by
    cases hes with
    | nil =>
      cases hvs
      exact ⟨[], t.span, bind_ok (check_of_eq hright) rfl, rfl⟩
    | cons ha has =>
      obtain ⟨a', as', q, hrun, has'⟩ := commaSeparated_of_reads ha has n vs (u :: rest) eof
        t.span nl (by omega) hvs (stops_of_closer (Or.inl hright))
      exact ⟨a' :: as', q, bind_ok (check_of_ne ((ha.opening.append _).kind_ne hvs)) hrun, has'⟩
  obtain ⟨es', q, hrun, hes'⟩ := hargs
  rw [List.cons_append, List.append_assoc]
  exact ⟨.call b es' (b.span.merge u.span), u.span,
    bind_ok (currentKind_of_eq hleft) (bind_ok advance_cons (bind_ok hrun
      (bind_ok (expect_of_eq hright) (bind_ok rfl rfl)))),
    by rw [Expr.erase, Expr.erase, hb, hes']⟩

theorem reads_comma {us : List Lexeme} {f : Expr} (he : Reads sc 1 ws e) (hf : Reads sc 1 us f)
    (hes : List.Forall₂ (Reads sc 1) wss es) :
    Reads sc 0 (joined (ws :: us :: wss)) (.comma (e :: f :: es) place) where
  opening := he.opening.append _
  parses n ts rest eof p nl hn hts hrest := by
    have hpos := he.opening.pos
    obtain ⟨n, rfl⟩ : ∃ m, n = m + 1 := ⟨n - 1, by rw [joined, List.length_append] at hn; omega⟩
    obtain ⟨e', es', p', hrun, hes'⟩ := commaSeparated_of_reads he (.cons hf hes) n ts rest eof
      p nl (by omega) hts hrest
    match es' with
    | [] => simp [Expr.eraseAll] at hes'
    | f' :: es' =>
      exact ⟨_, p', bind_ok hrun (bind_ok rfl rfl), by rw [Expr.erase, Expr.erase, hes']⟩

end Items

section TypeNames

variable {ks : List Keyword} {k : Keyword} {rest : List Token}

def typeText (ks : List Keyword) (stars : Nat) : String :=
  " ".intercalate (ks.map Keyword.spelling) ++ String.join (List.replicate stars "*")

theorem specifier_of_word (hk : k.isTypeWord = true) (hkind : t.kind = .word k)
    (htext : t.lexeme = k.spelling) (hname : (ts.headD eof).kind ≠ .identifier)
    (hbrace : (ts.headD eof).kind ≠ .punct .leftBrace) :
    specifier ⟨t :: ts, .ok eof, p, sc, nl⟩ =
      .ok (some [k.spelling], ⟨ts, .ok eof, t.span, sc, nl⟩) := by
  rw [← htext]
  refine bind_ok (currentKind_of_eq hkind) ?_
  split
  -- The word for a structure takes the tag and the body that follow, and here none does.
  · exact bind_ok lexemeAndAdvance_eq (bind_ok (bind_ok (check_of_ne hname) rfl)
      (bind_ok (bind_ok (check_of_ne hbrace) rfl) rfl))
  · have htype : startsType sc t = true := by
      rw [startsType, hkind, Token.Kind.isTypeWord, hk, Bool.true_or]
    refine bind_ok atType_eq ?_
    rw [List.headD_cons, htype]
    exact bind_ok lexemeAndAdvance_eq rfl

theorem specifier_of_punct {q : Punct} (h : (ts.headD eof).kind = .punct q) :
    specifier ⟨ts, .ok eof, p, sc, nl⟩ = .ok (none, ⟨ts, .ok eof, p, sc, nl⟩) := by
  refine bind_ok currentKind_eq ?_
  have htype : startsType sc (ts.headD eof) = false := by
    rw [startsType, h]
    rfl
  rw [h, if_neg (by simp), bind_eq atType_eq, htype]
  rfl

theorem runs_specifier {q : Punct} (hks : ∀ k ∈ ks, k.isTypeWord = true)
    (hts : List.Forall₂ Spells (ks.map .word) ts) (hrest : (rest.headD eof).kind = .punct q)
    (hq : q ≠ .leftBrace) (p : Span) : ∃ p',
      Runs specifier ⟨ts ++ rest, .ok eof, p, sc, nl⟩ (ks.map fun k => [k.spelling])
        ⟨rest, .ok eof, p', sc, nl⟩ := by
  induction ks generalizing ts p with
  | nil =>
    cases hts
    exact ⟨p, .nil (specifier_of_punct hrest)⟩
  | cons k ks ih =>
    rw [List.forall_mem_cons] at hks
    obtain ⟨t, us, rfl, hkind, htext, hus⟩ := spells_cons hts
    obtain ⟨p', hruns⟩ := ih hks.2 hus t.span
    have hnext : (((us ++ rest).headD eof).kind ≠ .identifier) ∧
        ((us ++ rest).headD eof).kind ≠ .punct .leftBrace := by
      cases ks with
      | nil =>
        cases hus
        rw [List.nil_append, hrest]
        simp [hq]
      | cons k ks =>
        obtain ⟨u, us, rfl, hu, -, -⟩ := spells_cons hus
        simp [hu, kind]
    exact ⟨p', .cons (specifier_of_word hks.1 hkind htext hnext.1 hnext.2) (Nat.lt_succ_self _)
      hruns⟩

theorem runs_star {n : Nat} (hts : List.Forall₂ Spells (List.replicate n (.punct .star)) ts)
    (hrest : (rest.headD eof).kind ≠ .punct .star) (p : Span) : ∃ p',
      Runs (do if ← accept (.punct .star) then return some "*" else return none)
        ⟨ts ++ rest, .ok eof, p, sc, nl⟩ (List.replicate n "*") ⟨rest, .ok eof, p', sc, nl⟩ := by
  induction n generalizing ts p with
  | zero =>
    cases hts
    exact ⟨p, .nil (bind_ok (accept_of_ne hrest) rfl)⟩
  | succ n ih =>
    obtain ⟨t, us, rfl, hstar, -, hus⟩ := spells_cons hts
    obtain ⟨p', hruns⟩ := ih hus t.span
    exact ⟨p', .cons (bind_ok (accept_of_eq hstar) rfl) (Nat.lt_succ_self _) hruns⟩

theorem typeName_of_spells {n : Nat} (hks : ∀ k ∈ ks, k.isTypeWord = true)
    (hts : List.Forall₂ Spells (ks.map .word ++ List.replicate n (.punct .star)) ts)
    (rest : List Token) (eof : Token) (p : Span) (sc : Scopes) (nl : Nat)
    (hrest : (rest.headD eof).kind = .punct .rightParen) : ∃ p',
      typeName ⟨ts ++ rest, .ok eof, p, sc, nl⟩ =
        .ok (typeText ks n, ⟨rest, .ok eof, p', sc, nl⟩) := by
  obtain ⟨ts, us, rfl, hwords, hstars⟩ := spells_append hts
  obtain ⟨q, hq, hqrest⟩ : ∃ q, q ≠ .leftBrace ∧ ((us ++ rest).headD eof).kind = .punct q := by
    cases n with
    | zero =>
      cases hstars
      exact ⟨_, by decide, hrest⟩
    | succ n =>
      obtain ⟨u, us, rfl, hu, -, -⟩ := spells_cons hstars
      exact ⟨_, by decide, hu⟩
  obtain ⟨p₁, hruns₁⟩ := runs_specifier hks hwords hqrest hq p
  obtain ⟨p', hruns₂⟩ := runs_star hstars (by rw [hrest]; decide) p₁
  rw [List.append_assoc]
  refine ⟨p', bind_ok (bind_ok hruns₁.many_eq rfl) (bind_ok hruns₂.many_eq ?_)⟩
  rw [← List.flatMap_def, ← List.map_eq_flatMap]
  rfl

end TypeNames

section Operators

variable {ws us vs : List Lexeme} {e f g : Expr} {place : Span}

/-- Operators of one strength group to the left: the operand after one is of the next form. -/
theorem Chain.snoc {op : BinaryOp} (he : Chain sc op.level ws e)
    (hf : Reads sc (op.level + 4) us f) :
    Chain sc op.level (ws ++ .punct op.punct :: us) (.binary op e f place) where
  opening := he.opening.append _
  steps n ts rest eof p nl hn hts hrest := by
    obtain ⟨ts, vs, rfl, hfirst, hvs⟩ := spells_append hts
    obtain ⟨t, us, rfl, hpunct, -, hus⟩ := spells_cons hvs
    have hpos := he.opening.pos
    rw [List.length_append, List.length_cons] at hn
    have hstop : Stops (op.level + 4) t.kind := hpunct ▸ stops_binary op
    have hop : binaryOp? op.level t.kind = some op := binaryOp?_eq_some.mpr ⟨hpunct, rfl⟩
    obtain ⟨a, s₀, b, q, hstart, hsteps, hb⟩ :=
      he.steps n ts (t :: us ++ rest) eof p nl (by omega) hfirst hstop
    obtain ⟨f', p', hrun, hf'⟩ := hf.parses n us rest eof t.span nl (by omega) hus hrest
    have hlast : binaryForm.step (form n (.binary (op.level + 1))) op.level b
        ⟨t :: us ++ rest, .ok eof, q, sc, nl⟩ =
          .ok (some (.binary op b f' (b.span.merge f'.span)), ⟨rest, .ok eof, p', sc, nl⟩) := by
      refine bind_ok (currentKind_of_eq rfl) ?_
      rw [hop]
      exact bind_ok advance_cons (bind_ok hrun rfl)
    rw [List.append_assoc]
    refine ⟨a, s₀, _, p', hstart, hsteps.tail hlast ?_, by rw [Expr.erase, Expr.erase, hb, hf']⟩
    simp only [List.cons_append, List.length_cons, List.length_append]
    omega

theorem reads_unary {op : UnaryOp} (hop : op.isPostfix = false) (he : Reads sc 13 ws e) :
    Reads sc 13 (.punct op.punct :: ws) (.unary op e place) where
  opening := ⟨_, rfl, by cases op <;> simp [Opens, UnaryOp.punct]⟩
  parses n ts rest eof p nl hn hts hrest := by
    obtain ⟨t, us, rfl, hpunct, -, hus⟩ := spells_cons hts
    have hpos := he.opening.pos
    rw [List.length_cons] at hn
    obtain ⟨n, rfl⟩ : ∃ m, n = m + 2 := ⟨n - 2, by omega⟩
    obtain ⟨e', p', hrun, he'⟩ := he.parses (n + 1) us rest eof t.span nl (by omega) hus hrest
    refine ⟨.unary op e' (t.span.merge e'.span), p', bind_ok current_cons ?_, by
      rw [Expr.erase, Expr.erase, he']⟩
    rw [hpunct, kind, prefixOp?_punct hop]
    exact bind_ok advance_cons (bind_ok hrun rfl)

theorem reads_cast {ks : List Keyword} {n : Nat} (hne : ks ≠ [])
    (hks : ∀ k ∈ ks, k.isTypeWord = true) (he : Reads sc 13 ws e) :
    Reads sc 13 (.punct .leftParen :: (ks.map .word ++ List.replicate n (.punct .star) ++
      .punct .rightParen :: ws)) (.cast (typeText ks n) e place) where
  opening := ⟨_, rfl, by simp [Opens]⟩
  parses m ts rest eof p nl hm hts hrest := by
    obtain ⟨t, us, rfl, hleft, -, hus⟩ := spells_cons hts
    obtain ⟨vs, us, rfl, hvs, hus⟩ := spells_append hus
    obtain ⟨u, us, rfl, hright, -, hus⟩ := spells_cons hus
    have hpos := he.opening.pos
    simp only [List.length_cons, List.length_append] at hm
    obtain ⟨m, rfl⟩ : ∃ i, m = i + 2 := ⟨m - 2, by omega⟩
    obtain ⟨q, htype⟩ := typeName_of_spells hks hvs (u :: us ++ rest) eof t.span sc nl hright
    obtain ⟨e', p', hrun, he'⟩ := he.parses (m + 1) us rest eof u.span nl (by omega) hus hrest
    rw [List.cons_append, List.append_assoc]
    have hfollows : startsType sc ((vs ++ (u :: us ++ rest)).headD eof) = true := by
      obtain ⟨k, ks, rfl⟩ := List.exists_cons_of_ne_nil hne
      obtain ⟨v, vs, rfl, hword, -, -⟩ := spells_cons hvs
      have hk : k.isTypeWord = true := hks k List.mem_cons_self
      rw [List.cons_append, List.headD_cons, startsType, hword, kind, Token.Kind.isTypeWord, hk,
        Bool.true_or]
    refine ⟨.cast (typeText ks n) e' (t.span.merge e'.span), p', bind_ok current_cons ?_, by
      rw [Expr.erase, Expr.erase, he']⟩
    simp only [hleft, kind, prefixOp?, if_true, reduceCtorEq, if_false]
    rw [bind_eq typeFollows_eq, List.tail_cons, hfollows]
    exact bind_ok currentSpan_cons (bind_ok advance_cons (bind_ok htype
      (bind_ok (expect_of_eq hright) (bind_ok hrun rfl))))

theorem reads_conditional (he : Reads sc 3 ws e) (hf : Reads sc 0 us f) (hg : Reads sc 2 vs g) :
    Reads sc 2 (ws ++ .punct .question :: (us ++ .punct .colon :: vs))
      (.conditional e f g place) where
  opening := he.opening.append _
  parses n ts rest eof p nl hn hts hrest := by
    obtain ⟨ts, xs, rfl, htest, hxs⟩ := spells_append hts
    obtain ⟨t, ys, rfl, hquestion, -, hys⟩ := spells_cons hxs
    obtain ⟨us, zs, rfl, hyes, hzs⟩ := spells_append hys
    obtain ⟨u, vs, rfl, hcolon, -, hno⟩ := spells_cons hzs
    have hpos := he.opening.pos
    simp only [List.length_append, List.length_cons] at hn
    obtain ⟨n, rfl⟩ : ∃ m, n = m + 1 := ⟨n - 1, by omega⟩
    have hstop : Stops 3 t.kind := hquestion ▸ stops_question
    obtain ⟨e', q, hrun, he'⟩ :=
      he.parses n ts (t :: (us ++ u :: vs) ++ rest) eof p nl (by omega) htest hstop
    obtain ⟨f', q', hrun', hf'⟩ := hf.parses n us (u :: vs ++ rest) eof t.span nl (by omega) hyes
      (stops_of_closer (Or.inr (Or.inr (Or.inl hcolon))))
    obtain ⟨g', p', hrun'', hg'⟩ := hg.parses n vs rest eof u.span nl (by omega) hno hrest
    rw [← List.append_assoc] at hrun'
    rw [List.append_assoc]
    exact ⟨.conditional e' f' g' (e'.span.merge g'.span), p',
      bind_ok hrun (bind_ok (accept_of_eq hquestion) (bind_ok hrun' (bind_ok (expect_of_eq hcolon)
        (bind_ok hrun'' rfl)))), by rw [Expr.erase, Expr.erase, he', hf', hg']⟩

theorem reads_assign {q : Punct} {op : AssignOp} (hop : assignOp? (.punct q) = some op)
    (he : Reads sc 2 ws e) (hf : Reads sc 1 us f) :
    Reads sc 1 (ws ++ .punct q :: us) (.assign op e f place) where
  opening := he.opening.append _
  parses n ts rest eof p nl hn hts hrest := by
    obtain ⟨ts, vs, rfl, htarget, hvs⟩ := spells_append hts
    obtain ⟨t, us, rfl, hpunct, -, hus⟩ := spells_cons hvs
    have hpos := he.opening.pos
    simp only [List.length_append, List.length_cons] at hn
    obtain ⟨n, rfl⟩ : ∃ m, n = m + 1 := ⟨n - 1, by omega⟩
    have hstop : Stops 2 t.kind := hpunct ▸ stops_assign hop
    obtain ⟨e', q, hrun, he'⟩ := he.parses n ts (t :: us ++ rest) eof p nl (by omega) htarget hstop
    obtain ⟨f', p', hrun', hf'⟩ := hf.parses n us rest eof t.span nl (by omega) hus hrest
    rw [List.append_assoc]
    refine ⟨.assign op e' f' (e'.span.merge f'.span), p',
      bind_ok hrun (bind_ok (currentKind_of_eq hpunct) ?_), by
        rw [Expr.erase, Expr.erase, he', hf']⟩
    rw [kind, hop]
    exact bind_ok advance_cons (bind_ok hrun' rfl)

end Operators

end LoopLegality.Grammar

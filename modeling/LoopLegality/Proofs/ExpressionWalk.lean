import LoopLegality.Proofs.TypeNames

namespace LoopLegality

def Expr.children : Expr → List Expr
  | .field o _ _ _ | .unary _ o _ | .cast _ o _ | .sizeOf o _ => [o]
  | .subscript b i _ => [b, i]
  | .call f as _ => f :: as
  | .binary _ l r _ | .assign _ l r _ => [l, r]
  | .conditional c t f _ => [c, t, f]
  | .comma es _ => es
  | .int _ _ | .float _ _ | .char _ _ | .str _ _ | .ident _ _ | .sizeOfType _ => []

theorem Expr.children_withSpan (e : Expr) (a : Span) : (e.withSpan a).children = e.children := by
  cases e <;> rfl

/-- The expression `d` stands in another one, behind the events `before` of the names in it. -/
inductive Expr.StandsIn (ts : List Token) : List Event → Expr → Expr → Prop
  | self (e : Expr) : StandsIn ts [] e e
  | inside {pre post : List Expr} {before : List Event} {d o e : Expr} :
      e.children = pre ++ o :: post → StandsIn ts before d o →
      StandsIn ts (Expr.eventsOf ts pre ++ before) d e

namespace Grammar

open Token (Covers nameFrom firstName)

variable {β : Type} {all ts us : List Token} {s s' s₀ s₁ s₂ : State} {t u : Token} {e f : Expr}
  {es fs : List Expr}

theorem eventsOf_eq_flatMap (es : List Expr) :
    Expr.eventsOf all es = es.flatMap (Expr.events all) := by
  induction es with
  | nil => simp
  | cons e es ih => simp [ih]

theorem eventsOf_append (es fs : List Expr) :
    Expr.eventsOf all (es ++ fs) = Expr.eventsOf all es ++ Expr.eventsOf all fs := by
  simp [eventsOf_eq_flatMap]

section Standing

/-- An expression in a text encloses those right inside it, and is read again from the tokens
under its span, in the scopes behind the events before it. -/
structure Stands (all : List Token) (sc : Scopes) (before : List Event) (d : Expr) : Prop where
  encloses : ∀ o ∈ d.children, d.span.Encloses o.span
  reads : ∃ us sc' v', us <:+: all ∧ Covers d.span us ∧ Scopes.Runs sc before sc' ∧
    Back 0 us d sc'.names v'

def AllStand (all : List Token) (sc : Scopes) (e : Expr) : Prop :=
  ∀ before d, Expr.StandsIn all before d e → Stands all sc before d

/-- Expressions that stand one after the other among the tokens `ts`. -/
def Row (all ts : List Token) (sc : Scopes) (es : List Expr) : Prop :=
  ∀ pre o post, es = pre ++ o :: post → ∃ us sc', us <:+: ts ∧ Covers o.span us ∧
    Scopes.Runs sc (Expr.eventsOf all pre) sc' ∧ AllStand all sc' o

variable {sc sc' : Scopes}

theorem row_nil : Row all ts sc [] := fun pre _ _ h => by cases pre <;> cases h

theorem Row.mono (h : Row all ts sc es) (hts : ts <:+: us) : Row all us sc es := by
  intro pre o post hes
  obtain ⟨vs, sc', hvs, hrest⟩ := h pre o post hes
  exact ⟨vs, sc', hvs.trans hts, hrest⟩

theorem Row.append (h : Row all ts sc es) (hrun : Scopes.Runs sc (Expr.eventsOf all es) sc')
    (h' : Row all us sc' fs) : Row all (ts ++ us) sc (es ++ fs) := by
  have hbehind (pre : List Expr) (o : Expr) (post : List Expr) (hfs : fs = pre ++ o :: post) :
      ∃ vs sc₁, vs <:+: ts ++ us ∧ Covers o.span vs ∧
        Scopes.Runs sc (Expr.eventsOf all (es ++ pre)) sc₁ ∧ AllStand all sc₁ o := by
    obtain ⟨vs, sc₁, hvs, hcovers, hruns, hstand⟩ := h' pre o post hfs
    refine ⟨vs, sc₁, hvs.trans (List.suffix_append ts us).isInfix, hcovers, ?_, hstand⟩
    rw [eventsOf_append]
    exact hrun.trans hruns
  intro pre o post hes
  rcases List.append_eq_append_iff.mp hes with ⟨pre', rfl, hfs⟩ | ⟨es', rfl, hes'⟩
  · exact hbehind pre' o post hfs
  · cases es' with
    | nil => simpa using hbehind [] o post hes'.symm
    | cons o' es' =>
      obtain ⟨rfl, rfl⟩ := List.cons.inj hes'
      exact h.mono (List.prefix_append ts us).isInfix pre o es' rfl

theorem Row.afterSilent (hpass : Passes all s ts silent s₁) (h : Row all us s₁.scopes es) :
    Row all us s.scopes es := by
  intro pre o post hes
  obtain ⟨vs, sc', hvs, hcovers, hruns, hstand⟩ := h pre o post hes
  exact ⟨vs, sc', hvs, hcovers, (hpass.scopes _ (.refl _)).trans hruns, hstand⟩

/-- The tokens `ts` from one state to another were read as an expression, which covers them, and
are read again as it. -/
structure ReadAs (all : List Token) (s : State) (ts : List Token) (e : Expr) (s' : State) : Prop
    extends Passes all s ts (fun _ => e.events all) s' where
  covers : Covers e.span ts
  back : Back 0 ts e s.scopes.names s'.scopes.names
  inside : Row all ts s.scopes e.children

theorem Passes.isInfix {es : SymbolTable → List Event} (h : Passes all s ts es s') : ts <:+: all :=
  (h.tokens ▸ List.prefix_append ts s'.tokens).isInfix.trans h.start.tokens.isInfix

theorem Passes.previous_eq {es : SymbolTable → List Event} (h : Passes all s ts es s') :
    s'.previous = spanAfter s.previous ts :=
  h.previous

theorem ReadAs.runs (h : ReadAs all s ts e s') :
    Scopes.Runs s.scopes (Expr.eventsOf all [e]) s'.scopes := by
  simpa using h.scopes _ (.refl _)

theorem ReadAs.allStand (h : ReadAs all s ts e s') : AllStand all s.scopes e := by
  intro before d hd
  cases hd with
  | self =>
    refine ⟨fun o ho => ?_, ts, s.scopes, _, h.isInfix, h.covers, .nil _, h.back⟩
    obtain ⟨pre, post, hchildren⟩ := List.append_of_mem ho
    obtain ⟨us, sc', hus, hcovers, -⟩ := h.inside pre o post hchildren
    exact h.covers.encloses hcovers h.ordered hus
  | inside hchildren hd =>
    obtain ⟨us, sc', -, -, hruns, hstand⟩ := h.inside _ _ _ hchildren
    obtain ⟨hencloses, vs, sc₁, v', hvs, hcovers, hruns', hback⟩ := hstand _ _ hd
    exact ⟨hencloses, vs, sc₁, v', hvs, hcovers, hruns.trans hruns', hback⟩

theorem ReadAs.row (h : ReadAs all s ts e s') : Row all ts s.scopes [e] := by
  intro pre o post hes
  obtain ⟨rfl, rfl⟩ : pre = [] ∧ o = e := by
    cases pre with
    | nil => exact ⟨rfl, (List.cons.inj hes).1.symm⟩
    | cons p pre => simp at hes
  exact ⟨ts, s.scopes, List.infix_rfl, h.covers, .nil _, h.allStand⟩

/-- The same, with what is known of how the tokens are read again. -/
structure ReadBy (all : List Token)
    (B : List Token → Expr → Scopes.Names → Scopes.Names → Prop) (s : State) (ts : List Token)
    (e : Expr) (s' : State) : Prop extends ReadAs all s ts e s' where
  how : B ts e s.scopes.names s'.scopes.names

variable {B C : List Token → Expr → Scopes.Names → Scopes.Names → Prop}

theorem ReadBy.imp (h : ReadBy all B s ts e s') (hBC : ∀ v v', B ts e v v' → C ts e v v') :
    ReadBy all C s ts e s' :=
  ⟨h.toReadAs, hBC _ _ h.how⟩

theorem readBy_of {es : SymbolTable → List Event} (h : Passes all s ts es s')
    (hevents : ∀ table, e.events all = es table) (hcovers : Covers e.span ts)
    (hrow : Row all ts s.scopes e.children) (how : B ts e s.scopes.names s'.scopes.names)
    (hback : Back 0 ts e s.scopes.names s'.scopes.names) : ReadBy all B s ts e s' where
  toPasses := h.congr fun table => (hevents table).symm
  covers := hcovers
  back := hback
  inside := hrow
  how := how

end Standing

section Primary

theorem Suffixed.back_zero {v v' : Scopes.Names} (h : Suffixed ts e v v') : Back 0 ts e v v' :=
  h.back.mono (by omega) (by omega)

theorem readBy_leaf (h : Passes all s [t] silent s')
    (hk : t.kind ∈ [.integer, .float, .char, .string, .identifier])
    (hspan : e.span = t.span) (hevents : e.events all = []) (hchildren : e.children = [])
    (hback : ∀ nested, Rereads (primary nested) (· ≠ .string) [t] e s.scopes.names s.scopes.names) :
    ReadBy all Suffixed s [t] e s' := by
  have hsuffixed : Suffixed [t] e s.scopes.names s'.scopes.names := by
    rw [h.names_eq]
    exact suffixed_leaf hk hback
  exact readBy_of h (fun _ => hevents) (hspan ▸ Token.covers_singleton t) (hchildren ▸ row_nil)
    hsuffixed hsuffixed.back_zero

theorem integerLiteral_inv (w : Within all s) (ht : Heads s t) (hk : t.kind = .integer)
    (h : integerLiteral s = .ok (e, s')) : ∃ ts, ReadBy all Suffixed s ts e s' := by
  obtain ⟨u, hu, h⟩ := current_bind h
  obtain rfl := ht.unique hu
  cases hvalue : Literal.integer? t.lexeme with
  | none =>
    rw [hvalue] at h
    exact absurd h fail_inv
  | some value =>
    rw [hvalue] at h
    obtain ⟨s₁, hpass, h⟩ := advance_bind h w ht (by simp [hk])
    cases h
    exact ⟨[t], readBy_leaf hpass (by simp [hk]) rfl (by simp) rfl fun _ =>
      rereads_integer hk hvalue⟩

theorem floatLiteral_inv (w : Within all s) (ht : Heads s t) (hk : t.kind = .float)
    (h : floatLiteral s = .ok (e, s')) : ∃ ts, ReadBy all Suffixed s ts e s' := by
  obtain ⟨u, hu, h⟩ := current_bind h
  obtain rfl := ht.unique hu
  cases hvalue : Literal.float? t.lexeme with
  | none =>
    rw [hvalue] at h
    exact absurd h fail_inv
  | some value =>
    rw [hvalue] at h
    obtain ⟨s₁, hpass, h⟩ := advance_bind h w ht (by simp [hk])
    cases h
    exact ⟨[t], readBy_leaf hpass (by simp [hk]) rfl (by simp) rfl fun _ =>
      rereads_float hk hvalue⟩

theorem charLiteral_inv (w : Within all s) (ht : Heads s t) (hk : t.kind = .char)
    (h : charLiteral s = .ok (e, s')) : ∃ ts, ReadBy all Suffixed s ts e s' := by
  obtain ⟨u, hu, h⟩ := current_bind h
  obtain rfl := ht.unique hu
  obtain ⟨s₁, hpass, h⟩ := advance_bind h w ht (by simp [hk])
  cases h
  exact ⟨[t], readBy_leaf hpass (by simp [hk]) rfl (by simp) rfl fun _ => rereads_char hk⟩

theorem stringParts_inv {n : Nat} {parts : List String} (w : Within all s)
    (h : repeatStep stringPart n s = .ok (parts, s')) :
    ∃ ts, Passes all s ts silent s' ∧ (∀ t ∈ ts, t.kind = .string) ∧
      parts = ts.map fun t => Literal.unquote t.lexeme := by
  induction n generalizing s parts with
  | zero =>
    cases h
    exact ⟨[], .refl w, by simp, rfl⟩
  | succ n ih =>
    obtain ⟨r, s₁, hr, h⟩ := bind_inv h
    obtain ⟨t, ht, ⟨hk, hr⟩ | ⟨-, hr⟩⟩ := check_bind hr
    · obtain ⟨s₂, hpass, hr⟩ := lexemeAndAdvance_bind hr w ht (by simp [hk])
      cases hr
      obtain ⟨parts, s₃, hparts, h⟩ := bind_inv h
      cases h
      obtain ⟨ts, hts, hkinds, rfl⟩ := ih hpass.within hparts
      exact ⟨t :: ts, hpass.thenSilent hts, List.forall_mem_cons.mpr ⟨hk, hkinds⟩, rfl⟩
    · cases hr
      cases h
      exact ⟨[], .refl w, by simp, rfl⟩

theorem stringLiteral_inv (w : Within all s) (ht : Heads s t) (hk : t.kind = .string)
    (h : stringLiteral s = .ok (e, s')) : ∃ ts, ReadBy all Suffixed s ts e s' := by
  obtain ⟨u, hu, h⟩ := currentSpan_bind h
  obtain rfl := ht.unique hu
  obtain ⟨parts, s₁, hparts, h⟩ := bind_inv h
  -- The first literal is there, so at least one token is read.
  obtain ⟨ts, hts, hkinds, rfl⟩ : ∃ ts, Passes all s ([t] ++ ts) silent s₁ ∧
      (∀ t ∈ ts, t.kind = .string) ∧
      parts = (t :: ts).map fun t => Literal.unquote t.lexeme := by
    obtain ⟨n, hparts⟩ := remaining_bind hparts
    obtain ⟨part, s₂, hpart, hparts⟩ := bind_inv hparts
    obtain ⟨u, hu, ⟨-, hpart⟩ | ⟨hne, -⟩⟩ := check_bind hpart
    · obtain ⟨s₃, hpass, hpart⟩ := lexemeAndAdvance_bind hpart w ht (by simp [hk])
      cases hpart
      obtain ⟨rest, s₄, hrest, hparts⟩ := bind_inv hparts
      cases hparts
      obtain ⟨ts, hts, hkinds, rfl⟩ := stringParts_inv hpass.within hrest
      exact ⟨ts, hpass.thenSilent hts, hkinds, rfl⟩
    · exact absurd (ht.unique hu ▸ hk) hne
  cases spanFrom_bind h
  have hprevious : s'.previous = spanAfter t.span ts := by
    rw [hts.previous_eq, spanAfter_append, spanAfter_cons, spanAfter_nil]
  have hsuffixed : Suffixed ([t] ++ ts) (.str (String.join ((t :: ts).map fun t =>
      Literal.unquote t.lexeme)) (t.span.merge s'.previous)) s.scopes.names s'.scopes.names := by
    rw [hts.names_eq, hprevious]
    exact suffixed_leaf (by simp [hk]) fun _ => rereads_string hk hkinds
  exact ⟨[t] ++ ts, readBy_of hts (fun _ => by simp [silent])
    (hts.covers_spanFrom (Token.covers_singleton t) (List.prefix_append _ _)) row_nil hsuffixed
    hsuffixed.back_zero⟩

theorem firstName_of_ne (hk : t.kind ≠ .identifier) : firstName (t :: ts) = firstName ts := by
  rw [firstName, if_neg hk]

theorem firstName_of_eq (hk : t.kind = .identifier) : (firstName (t :: ts)).1 = t.lexeme := by
  rw [firstName, if_pos hk]

theorem identifier_inv (w : Within all s) (ht : Heads s t) (hk : t.kind = .identifier)
    (h : identifier s = .ok (e, s')) : ∃ ts, ReadBy all Suffixed s ts e s' := by
  obtain ⟨u, hu, h⟩ := current_bind h
  obtain rfl := ht.unique hu
  obtain ⟨v, hv, h⟩ := peek_bind h
  obtain ⟨s₁, hpass, h⟩ := advance_bind h w ht (by simp [hk])
  cases bindName_bind h
  have hname : firstName s.tokens = (t.lexeme, decide (v.kind = .punct .leftParen)) := by
    rw [hpass.tokens] at hv ⊢
    rw [List.singleton_append, firstName, if_pos hk, Prod.mk.injEq]
    refine ⟨rfl, ?_⟩
    cases hrest : s₁.tokens with
    | cons u rest =>
      cases (by simpa [hrest, headToken] using hv : u = v)
      simp [BEq.beq]
    | nil =>
      cases he : s.ending with
      | error e => simp [hrest, he, headToken] at hv
      | ok eof =>
        cases (by simpa [hrest, he, headToken] using hv : eof = v)
        simp [(w.ending _ he).1]
  have hstep := Scopes.Step.use s₁.scopes t.lexeme (decide (v.kind = .punct .leftParen))
  simp only [decide_eq_true_eq] at hstep
  have hsuffixed (k : Symbol.Kind) : Suffixed [t] (.ident (s₁.scopes.resolve t.lexeme k).1 t.span)
      s.scopes.names (s₁.scopes.resolve t.lexeme k).2.names := by
    rw [← hpass.names_eq]
    exact suffixed_leaf (by simp [hk]) fun _ => rereads_name hk
  refine ⟨[t] ++ [], readBy_of (hpass.trans (hpass.within.step hstep)) ?_
    (Token.covers_singleton t) row_nil (hsuffixed _) (hsuffixed _).back_zero⟩
  intro table
  rw [Expr.events, hpass.nameFrom_first (Token.covers_singleton t), hname]
  rfl

theorem events_withSpan {a : Span}
    (h : nameFrom a.first.offset all = nameFrom e.span.first.offset all) :
    (e.withSpan a).events all = e.events all := by
  cases e with
  | ident x b =>
    have h' : nameFrom a.first.offset all = nameFrom b.first.offset all := h
    simp only [Expr.withSpan, Expr.events, h']
  | _ => simp only [Expr.withSpan, Expr.events]

theorem span_withSpan (e : Expr) (a : Span) : (e.withSpan a).span = a := by
  cases e <;> rfl

def Yields (all : List Token) (k : Nat) (p : Parser Expr) : Prop :=
  ∀ ⦃s e s'⦄, Within all s → p s = .ok (e, s') → ∃ ts, ReadBy all (Back k) s ts e s'

theorem Yields.bind {k : Nat} {p : Parser Expr} {f : Expr → Parser β} {r : β × State}
    (hp : Yields all k p) (w : Within all s) (h : (p >>= f) s = .ok r) :
    ∃ e s₁ ts, ReadBy all (Back k) s ts e s₁ ∧ f e s₁ = .ok r := by
  obtain ⟨e, s₁, he, h⟩ := bind_inv h
  obtain ⟨ts, hts⟩ := hp w he
  exact ⟨e, s₁, ts, hts, h⟩

theorem Passes.tail {es : SymbolTable → List Event} (h : Passes all s [t] es s') :
    s.tokens.tail = s'.tokens := by
  rw [h.tokens]
  rfl

theorem typeAhead_of_tail {b : Bool} {rest : List Token} (htail : s.tokens.tail = us ++ rest)
    (hne : us ≠ []) (ht : headToken s.tokens.tail s.ending = .ok t)
    (htype : startsType s.scopes t = b) : TypeAhead b s.scopes.names us := by
  obtain ⟨u, us, rfl⟩ := List.exists_cons_of_ne_nil hne
  rw [htail] at ht
  cases ht
  exact ⟨_, rfl, fun sc hsc => (startsType_of_names hsc _).trans htype⟩

/-- No type stands here in parentheses. -/
def NoTypeAhead (s : State) : Prop :=
  ∀ t u, Heads s t → t.kind = .punct .leftParen → headToken s.tokens.tail s.ending = .ok u →
    startsType s.scopes u = false

theorem NoTypeAhead.typeAhead {rest : List Token} (h : NoTypeAhead s)
    (hs : s.tokens = t :: us ++ rest) (ht : t.kind = .punct .leftParen) (hne : us ≠ []) :
    TypeAhead false s.scopes.names us := by
  obtain ⟨u, us, rfl⟩ := List.exists_cons_of_ne_nil hne
  have hheads : Heads s t := by
    rw [Heads, hs]
    rfl
  have hu : headToken s.tokens.tail s.ending = .ok u := by
    rw [hs]
    rfl
  exact typeAhead_of_tail (congrArg List.tail hs) hne hu (h t u hheads ht hu)

variable {nested argument : Parser Expr}

theorem parenthesized_inv (hnested : Yields all 0 nested) (w : Within all s) (ht : Heads s t)
    (hk : t.kind = .punct .leftParen) (hahead : NoTypeAhead s)
    (h : parenthesized nested s = .ok (e, s')) : ∃ ts, ReadBy all Suffixed s ts e s' := by
  obtain ⟨u, hu, h⟩ := currentSpan_bind h
  obtain rfl := ht.unique hu
  obtain ⟨s₁, hopen, h⟩ := advance_bind h w ht (by simp [hk])
  obtain ⟨inner, s₂, ts, hinner, h⟩ := hnested.bind hopen.within h
  obtain ⟨u, s₃, hu, hclose, h⟩ := expectPunct_bind h hinner.within
  cases spanFrom_bind h
  have hpass := (hopen.afterSilent hinner.toPasses).thenSilent hclose
  have hcovers : Covers (t.span.merge s'.previous) ([t] ++ ts ++ [u]) :=
    hpass.covers_spanFrom (Token.covers_singleton t) (by simp)
  have hnames : firstName s.tokens = firstName s₁.tokens := by
    rw [hopen.tokens]
    exact firstName_of_ne (by simp [hk])
  have htype : TypeAhead false s.scopes.names ts :=
    hahead.typeAhead (hopen.afterSilent hinner.toPasses).tokens hk
      (List.ne_nil_of_length_pos hinner.back.begins.pos)
  have hsuffixed : Suffixed ([t] ++ ts ++ [u]) (inner.withSpan (t.span.merge s'.previous))
      s.scopes.names s'.scopes.names := by
    have hback := hinner.back
    rw [hopen.names_eq] at hback
    rw [hclose.names_eq, hclose.previous_eq]
    exact suffixed_paren hk hu htype hback
  refine ⟨_, readBy_of hpass (fun _ => ?_) (by rwa [span_withSpan]) ?_ hsuffixed
    hsuffixed.back_zero⟩
  · rw [events_withSpan]
    rw [hpass.nameFrom_first hcovers, hinner.nameFrom_first hinner.covers, hnames]
  · rw [Expr.children_withSpan]
    exact (hinner.inside.afterSilent hopen).mono ⟨[t], [u], rfl⟩

theorem primary_inv (hnested : Yields all 0 nested) (w : Within all s) (hahead : NoTypeAhead s)
    (h : primary nested s = .ok (e, s')) : ∃ ts, ReadBy all Suffixed s ts e s' := by
  obtain ⟨t, k, ht, hk, h⟩ := currentKind_bind h
  split at h
  · exact integerLiteral_inv w ht hk h
  · exact floatLiteral_inv w ht hk h
  · exact charLiteral_inv w ht hk h
  · exact stringLiteral_inv w ht hk h
  · exact identifier_inv w ht hk h
  · exact parenthesized_inv hnested w ht hk hahead h
  · exact absurd h fail_inv

end Primary

section Suffixes

variable {nested argument item : Parser Expr}

theorem ReadAs.rowThen {vs : List Token} (h : ReadAs all s ts e s₁)
    (hbetween : Passes all s₁ us silent s₂) (hrow : Row all vs s₂.scopes es) :
    Row all (ts ++ us ++ vs) s.scopes (e :: es) := by
  rw [List.append_assoc]
  exact h.row.append h.runs ((hrow.afterSilent hbetween).mono (List.suffix_append us vs).isInfix)

structure ReadItems (all : List Token) (s : State) (ts : List Token) (es : List Expr) (s' : State) :
    Prop extends Passes all s ts (fun _ => Expr.eventsOf all es) s' where
  row : Row all ts s.scopes es
  listed : Listed ts es s.scopes.names s'.scopes.names
  stays : es = [] → ts = [] ∧ s' = s

theorem readItems_nil (w : Within all s) : ReadItems all s [] [] s :=
  ⟨(Passes.refl w).congr fun _ => by simp [silent], row_nil, listed_nil, fun _ => ⟨rfl, rfl⟩⟩

theorem ReadItems.cons (hcomma : Passes all s [t] silent s₁) (hk : t.kind = .punct .comma)
    (he : ReadBy all (Back 1) s₁ ts e s₂) (hes : ReadItems all s₂ us es s') :
    ReadItems all s ([t] ++ ts ++ us) (e :: es) s' where
  toPasses := ((hcomma.afterSilent he.toPasses).trans hes.toPasses).congr fun _ => by simp
  row := by
    rw [List.append_assoc]
    refine Row.mono ?_ (List.suffix_append [t] (ts ++ us)).isInfix
    exact Row.afterSilent hcomma (he.row.append he.runs hes.row)
  listed := by
    have hback := he.how
    rw [hcomma.names_eq] at hback
    exact hes.listed.cons hk hback
  stays := by simp

theorem repeatStep_commaItem_inv {n : Nat} (hitem : Yields all 1 item) (w : Within all s)
    (h : repeatStep (commaItem item) n s = .ok (es, s')) : ∃ ts, ReadItems all s ts es s' := by
  induction n generalizing s es with
  | zero =>
    cases h
    exact ⟨[], readItems_nil w⟩
  | succ n ih =>
    obtain ⟨r, s₁, hr, h⟩ := bind_inv h
    obtain ⟨t, s₂, hk, hcomma, hr⟩ | hr := accept_bind hr w (by simp)
    · obtain ⟨e, s₃, ts, he, hr⟩ := hitem.bind hcomma.within hr
      cases hr
      obtain ⟨es, s₄, hes, h⟩ := bind_inv h
      cases h
      obtain ⟨us, hus⟩ := ih he.within hes
      exact ⟨_, hus.cons hcomma hk he⟩
    · cases hr
      cases h
      exact ⟨[], readItems_nil w⟩

theorem commaSeparated_inv (hitem : Yields all 1 item) (w : Within all s)
    (h : commaSeparated item s = .ok (es, s')) : ∃ e fs s₁ ts us, es = e :: fs ∧
      ReadBy all (Back 1) s ts e s₁ ∧ ReadItems all s₁ us fs s' := by
  obtain ⟨e, s₁, ts, he, h⟩ := hitem.bind w h
  obtain ⟨fs, s₂, hfs, h⟩ := bind_inv h
  cases h
  obtain ⟨n, hfs⟩ := remaining_bind hfs
  obtain ⟨us, hus⟩ := repeatStep_commaItem_inv hitem he.within hfs
  exact ⟨e, fs, s₁, ts, us, rfl, he, hus⟩

structure ReadArguments (all : List Token) (s : State) (ts : List Token) (es : List Expr)
    (s' : State) : Prop extends Passes all s ts (fun _ => Expr.eventsOf all es) s' where
  row : Row all ts s.scopes es
  back : ∀ n, 16 * ts.length ≤ n + 1 → Rereads (arguments (form n .assignment))
    (· = .punct .rightParen) ts es s.scopes.names s'.scopes.names

theorem arguments_inv (hargument : Yields all 1 argument) (w : Within all s)
    (h : arguments argument s = .ok (es, s')) : ∃ ts, ReadArguments all s ts es s' := by
  obtain ⟨t, ht, ⟨-, h⟩ | ⟨hk, h⟩⟩ := check_bind h
  · cases h
    exact ⟨[], (Passes.refl w).congr fun _ => by simp [silent], row_nil, fun _ _ =>
      rereads_noArguments⟩
  · obtain ⟨e, fs, s₁, ts, us, rfl, he, hfs⟩ := commaSeparated_inv hargument w h
    refine ⟨ts ++ us, (he.toPasses.trans hfs.toPasses).congr fun _ => by simp,
      he.row.append he.runs hfs.row, fun n hn => ?_⟩
    have hback := hfs.listed.commaSeparated he.how n hn
    obtain ⟨u, vs, rfl, -⟩ := he.back.begins
    have hu : Heads s u := by
      rw [Heads, he.tokens]
      rfl
    exact rereads_arguments (ht.unique hu ▸ hk) hback

/-- A step that, after an expression, reads on to a longer one or stops. -/
def Grows (all : List Token) (B : List Token → Expr → Scopes.Names → Scopes.Names → Prop)
    (step : Expr → Parser (Option Expr)) : Prop :=
  ∀ ⦃s₀ ts e s r s'⦄, ReadBy all B s₀ ts e s → step e s = .ok (r, s') →
    r = none ∧ s = s' ∨ ∃ f us, r = some f ∧ ReadBy all B s₀ us f s'

theorem ReadAs.extend {B : List Token → Expr → Scopes.Names → Scopes.Names → Prop}
    {es : SymbolTable → List Event} (h : ReadAs all s₀ ts e s) (h' : Passes all s us es s')
    (hspan : f.span = e.span.merge s'.previous)
    (hevents : ∀ table, f.events all = e.events all ++ es table)
    (hrow : Row all (ts ++ us) s₀.scopes f.children)
    (how : B (ts ++ us) f s₀.scopes.names s'.scopes.names)
    (hback : Back 0 (ts ++ us) f s₀.scopes.names s'.scopes.names) :
    ReadBy all B s₀ (ts ++ us) f s' :=
  readBy_of (h.toPasses.trans h') hevents
    (hspan ▸ (h.toPasses.trans h').covers_spanFrom h.covers (List.prefix_append _ _)) hrow how hback

theorem ReadBy.subscript (h : ReadBy all Suffixed s₀ ts e s) (hopen : Passes all s [t] silent s₁)
    (ht : t.kind = .punct .leftBracket) (hindex : ReadBy all (Back 0) s₁ us f s₂)
    (hclose : Passes all s₂ [u] silent s') (hu : u.kind = .punct .rightBracket) :
    ReadBy all Suffixed s₀ (ts ++ ([t] ++ us ++ [u])) (.subscript e f (e.span.merge s'.previous))
      s' := by
  have hrow : Row all (ts ++ ([t] ++ us ++ [u])) s₀.scopes [e, f] :=
    (h.rowThen hopen hindex.row).mono ⟨[], [u], by simp⟩
  have hsuffixed := h.how.subscript ht hu (hopen.names_eq ▸ hindex.how)
  rw [← hclose.names_eq] at hsuffixed
  rw [hclose.previous_eq]
  exact h.extend ((hopen.afterSilent hindex.toPasses).thenSilent hclose)
    (by rw [hclose.previous_eq]; rfl) (fun _ => by simp) hrow hsuffixed hsuffixed.back_zero

theorem ReadBy.call (h : ReadBy all Suffixed s₀ ts e s) (hopen : Passes all s [t] silent s₁)
    (ht : t.kind = .punct .leftParen) (has : ReadArguments all s₁ us es s₂)
    (hclose : Passes all s₂ [u] silent s') (hu : u.kind = .punct .rightParen) :
    ReadBy all Suffixed s₀ (ts ++ ([t] ++ us ++ [u])) (.call e es (e.span.merge s'.previous))
      s' := by
  have hrow : Row all (ts ++ ([t] ++ us ++ [u])) s₀.scopes (e :: es) :=
    (h.rowThen hopen has.row).mono ⟨[], [u], by simp⟩
  have hsuffixed := h.how.call ht hu (hopen.names_eq ▸ has.back)
  rw [← hclose.names_eq] at hsuffixed
  rw [hclose.previous_eq]
  exact h.extend ((hopen.afterSilent has.toPasses).thenSilent hclose)
    (by rw [hclose.previous_eq]; rfl) (fun _ => by simp) hrow hsuffixed hsuffixed.back_zero

theorem ReadBy.postOp {op : UnaryOp} (h : ReadBy all Suffixed s₀ ts e s)
    (hop : op.isPostfix = true) (hpass : Passes all s [t] silent s')
    (ht : t.kind = .punct op.punct) :
    ReadBy all Suffixed s₀ (ts ++ [t]) (.unary op e (e.span.merge s'.previous)) s' := by
  have hsuffixed := h.how.postOp hop ht
  rw [← hpass.names_eq] at hsuffixed
  rw [hpass.previous_eq]
  exact h.extend hpass (by rw [hpass.previous_eq]; rfl) (fun _ => by simp [silent])
    (h.row.mono (List.prefix_append ts [t]).isInfix) hsuffixed hsuffixed.back_zero

theorem memberOf_grows {arrow : Bool} {r : Option Expr} (hread : ReadBy all Suffixed s₀ ts e s)
    (ht : Heads s t) (hk : t.kind = .punct (if arrow then .arrow else .dot))
    (h : postfixStep.memberOf e arrow s = .ok (r, s')) :
    ∃ f us, r = some f ∧ ReadBy all Suffixed s₀ us f s' := by
  obtain ⟨s₁, hdot, h⟩ := advance_bind h hread.within ht (by simp [hk])
  obtain ⟨u, s₂, hu, hname, h⟩ := expectName_bind h hdot.within
  have h := bindName_bind h
  cases spanFrom_bind h
  have hmember := hname.within.step (.member s₂.scopes u.lexeme)
  have hsuffixed : Suffixed (ts ++ [t, u]) (.field e (s₂.scopes.member u.lexeme).1 arrow
      (e.span.merge s₂.previous)) s₀.scopes.names (s₂.scopes.member u.lexeme).2.names := by
    rw [hname.previous_eq]
    exact .member (hname.names_eq ▸ hdot.names_eq ▸ hread.how) hk hu
  refine ⟨_, _, rfl, hread.extend ((hdot.thenSilent hname).afterSilent hmember) rfl (fun _ => ?_)
    (hread.row.mono (List.prefix_append _ _).isInfix) hsuffixed hsuffixed.back_zero⟩
  have hspelling : (nameFrom e.span.last.offset all).1 = u.lexeme := by
    rw [hread.nameFrom_last hread.covers, hdot.tokens, hname.tokens]
    rw [List.singleton_append, firstName_of_ne (by simp [hk])]
    exact firstName_of_eq hu
  rw [Expr.events, hspelling]

theorem postfixStep_grows (hnested : Yields all 0 nested) (hargument : Yields all 1 argument) :
    Grows all Suffixed (postfixStep nested argument) := by
  intro s₀ ts e s r s' hread h
  obtain ⟨t, k, ht, hk, h⟩ := currentKind_bind h
  split at h
  · obtain ⟨s₁, hopen, h⟩ := advance_bind h hread.within ht (by simp [hk])
    obtain ⟨index, s₂, us, hindex, h⟩ := hnested.bind hopen.within h
    obtain ⟨u, s₃, hu, hclose, h⟩ := expectPunct_bind h hindex.within
    cases spanFrom_bind h
    exact .inr ⟨_, _, rfl, hread.subscript hopen hk hindex hclose hu⟩
  · obtain ⟨s₁, hopen, h⟩ := advance_bind h hread.within ht (by simp [hk])
    obtain ⟨args, s₂, hargs, h⟩ := bind_inv h
    obtain ⟨us, hus⟩ := arguments_inv hargument hopen.within hargs
    obtain ⟨u, s₃, hu, hclose, h⟩ := expectPunct_bind h hus.within
    cases spanFrom_bind h
    exact .inr ⟨_, _, rfl, hread.call hopen hk hus hclose hu⟩
  · exact .inr (memberOf_grows hread ht (by simpa using hk) h)
  · exact .inr (memberOf_grows hread ht (by simpa using hk) h)
  · obtain ⟨s₁, hpass, h⟩ := advance_bind h hread.within ht (by simp [hk])
    cases spanFrom_bind h
    exact .inr ⟨_, _, rfl, hread.postOp rfl hpass hk⟩
  · obtain ⟨s₁, hpass, h⟩ := advance_bind h hread.within ht (by simp [hk])
    cases spanFrom_bind h
    exact .inr ⟨_, _, rfl, hread.postOp rfl hpass hk⟩
  · cases h
    exact .inl ⟨rfl, rfl⟩

variable {B : List Token → Expr → Scopes.Names → Scopes.Names → Prop}
  {step : Expr → Parser (Option Expr)}

theorem extendStep_inv {n : Nat} (hstep : Grows all B step) (hread : ReadBy all B s₀ ts e s)
    (h : extendStep step n e s = .ok (f, s')) : ∃ us, ReadBy all B s₀ us f s' := by
  induction n generalizing s ts e with
  | zero =>
    cases h
    exact ⟨ts, hread⟩
  | succ n ih =>
    obtain ⟨r, s₁, hr, h⟩ := bind_inv h
    obtain ⟨rfl, rfl⟩ | ⟨g, us, rfl, hgrown⟩ := hstep hread hr
    · cases h
      exact ⟨ts, hread⟩
    · exact ih hgrown h

theorem extend_inv (hstep : Grows all B step) (hread : ReadBy all B s₀ ts e s)
    (h : extend step e s = .ok (f, s')) : ∃ us, ReadBy all B s₀ us f s' := by
  obtain ⟨n, h⟩ := remaining_bind h
  exact extendStep_inv hstep hread h

theorem ReadBy.refine (h : ReadBy all B s ts e s₁) (x : Symbol) (rank : Nat) :
    ReadBy all B s ts e { s₁ with scopes := s₁.scopes.refine x (.array rank) } := by
  have hpass := h.toPasses.thenSilent (h.within.step (.refine s₁.scopes x rank))
  rw [List.append_nil] at hpass
  have hnames := s₁.scopes.names_refine x (.array rank)
  exact ⟨⟨hpass, h.covers, hnames.symm ▸ h.back, h.inside⟩, hnames.symm ▸ h.how⟩

theorem postfixForm_inv (hnested : Yields all 0 nested) (hargument : Yields all 1 argument)
    (w : Within all s) (hahead : NoTypeAhead s)
    (h : postfixForm nested argument s = .ok (e, s')) : ∃ ts, ReadBy all (Back 13) s ts e s' := by
  obtain ⟨first, s₁, hfirst, h⟩ := bind_inv h
  obtain ⟨ts, hts⟩ := primary_inv hnested w hahead hfirst
  obtain ⟨f, s₂, hf, h⟩ := bind_inv h
  obtain ⟨us, hus⟩ := extend_inv (postfixStep_grows hnested hargument) hts hf
  have hback := hus.imp fun _ _ hsuffixed => hsuffixed.back
  cases hchain : f.subscriptChain? with
  | none =>
    rw [hchain] at h
    cases h
    exact ⟨us, hback⟩
  | some chain =>
    rw [hchain] at h
    cases modifyScopes_bind h
    exact ⟨us, hback.refine chain.1 chain.2⟩

end Suffixes

section Operators

variable {operand nested argument : Parser Expr} {vs : List Token} {g : Expr}

theorem ReadAs.merge {B : List Token → Expr → Scopes.Names → Scopes.Names → Prop}
    {es : SymbolTable → List Event} (h : ReadAs all s ts e s₁) (hbetween : Passes all s₁ us es s₂)
    (h' : ReadAs all s₂ vs f s') (hspan : g.span = e.span.merge f.span)
    (hevents : ∀ table, g.events all = e.events all ++ es table ++ f.events all)
    (hrow : Row all (ts ++ us ++ vs) s.scopes g.children)
    (how : B (ts ++ us ++ vs) g s.scopes.names s'.scopes.names)
    (hback : Back 0 (ts ++ us ++ vs) g s.scopes.names s'.scopes.names) :
    ReadBy all B s (ts ++ us ++ vs) g s' := by
  have hpass := (h.toPasses.trans hbetween).trans h'.toPasses
  refine readBy_of hpass hevents (hspan ▸ ?_) hrow how hback
  exact h.covers.merge h'.covers hpass.ordered (by simp) (List.suffix_append _ _)

theorem ReadAs.front (h : Passes all s ts silent s₁) (hts : [t] <+: ts)
    (h' : ReadAs all s₁ us e s') (hspan : g.span = t.span.merge e.span)
    (hevents : g.events all = e.events all) (hchildren : g.children = [e])
    (how : Back 13 (ts ++ us) g s.scopes.names s'.scopes.names) :
    ReadBy all (Back 13) s (ts ++ us) g s' := by
  have hpass := h.afterSilent h'.toPasses
  refine readBy_of hpass (fun _ => hevents) (hspan ▸ ?_) (hchildren ▸ ?_) how
    (how.mono (by omega) (by omega))
  · exact (Token.covers_singleton t).merge h'.covers hpass.ordered
      (hts.trans (List.prefix_append _ _)) (List.suffix_append _ _)
  · exact (h'.row.afterSilent h).mono (List.suffix_append ts us).isInfix

theorem sizeofForm_inv (hoperand : Yields all 13 operand) (w : Within all s) (ht : Heads s t)
    (hk : t.kind = .word .kwSizeof) (h : sizeofForm operand s = .ok (e, s')) :
    ∃ ts, ReadBy all (Back 13) s ts e s' := by
  obtain ⟨u, hu, h⟩ := currentSpan_bind h
  obtain rfl := ht.unique hu
  obtain ⟨s₁, hpass, h⟩ := advance_bind h w ht (by simp [hk])
  have hrest (hahead : NoTypeAhead s₁)
      (h : (do let e ← operand; return Expr.sizeOf e (t.span.merge e.span) : Parser Expr) s₁ =
        .ok (e, s')) : ∃ ts, ReadBy all (Back 13) s ts e s' := by
    obtain ⟨f, s₂, ts, hf, h⟩ := hoperand.bind hpass.within h
    cases h
    refine ⟨_, ReadAs.front hpass List.prefix_rfl hf.toReadAs rfl (by simp) rfl ?_⟩
    rw [← hpass.names_eq]
    refine back_sizeOf hk (fun u us hts hu => ?_) hf.how
    obtain ⟨u', us', hts', -, hne⟩ := hf.back.begins
    obtain ⟨rfl, rfl⟩ := List.cons.inj (hts.symm.trans hts')
    exact hahead.typeAhead (hts ▸ hf.tokens) hu (hne hu)
  obtain ⟨u, hu, ⟨huk, h⟩ | ⟨huk, h⟩⟩ := check_bind h
  · obtain ⟨v, hv, h⟩ := typeFollows_bind h
    cases hb : startsType s₁.scopes v with
    | false =>
      rw [hb] at h
      refine hrest (fun _ v' _ _ hv' => ?_) h
      cases hv.symm.trans hv'
      exact hb
    | true =>
      rw [hb] at h
      obtain ⟨s₂, hopen, h⟩ := advance_bind h hpass.within hu (by simp [huk])
      obtain ⟨type, s₃, htype, h⟩ := bind_inv h
      obtain ⟨ts, hts, hback⟩ := typeName_inv hopen.within htype
      obtain ⟨x, s₄, hx, hclose, h⟩ := expectPunct_bind h hts.within
      cases spanFrom_bind h
      have hall := ((hpass.thenSilent hopen).thenSilent hts).thenSilent hclose
      have hahead : TypeAhead true s₁.scopes.names (ts ++ [x]) :=
        typeAhead_of_tail (hopen.tail.trans (hts.thenSilent hclose).tokens) (by simp) hv hb
      have htype := hback ⟨x, hclose.heads, hx⟩
      rw [hopen.names_eq, hpass.names_eq] at htype
      rw [hpass.names_eq] at hahead
      have how : Back 13 ([t] ++ [u] ++ ts ++ [x]) (.sizeOfType (t.span.merge s'.previous))
          s.scopes.names s'.scopes.names := by
        rw [hclose.names_eq, hclose.previous_eq]
        exact back_sizeOfType hk huk hx hahead htype
      exact ⟨_, readBy_of hall (fun _ => by simp [silent])
        (hall.covers_spanFrom (Token.covers_singleton t) (by simp)) row_nil how
        (how.mono (by omega) (by omega))⟩
  · exact hrest (fun u' _ hu' hk' _ => absurd (hu.unique hu' ▸ hk') huk) h

theorem castForm_inv (hoperand : Yields all 13 operand) (w : Within all s) (ht : Heads s t)
    (hk : t.kind = .punct .leftParen) (hu : headToken s.tokens.tail s.ending = .ok u)
    (htype : startsType s.scopes u = true) (h : castForm operand s = .ok (e, s')) :
    ∃ ts, ReadBy all (Back 13) s ts e s' := by
  obtain ⟨t', ht', h⟩ := currentSpan_bind h
  obtain rfl := ht.unique ht'
  obtain ⟨s₁, hopen, h⟩ := advance_bind h w ht (by simp [hk])
  obtain ⟨type, s₂, hname, h⟩ := bind_inv h
  obtain ⟨ts, hts, hback⟩ := typeName_inv hopen.within hname
  obtain ⟨v, s₃, hv, hclose, h⟩ := expectPunct_bind h hts.within
  obtain ⟨f, s₄, us, hf, h⟩ := hoperand.bind hclose.within h
  cases h
  have hahead : TypeAhead true s.scopes.names (ts ++ [v]) :=
    typeAhead_of_tail (hopen.tail.trans (hts.thenSilent hclose).tokens) (by simp) hu htype
  have hrereads := hback ⟨v, hclose.heads, hv⟩
  rw [hopen.names_eq, ← hclose.names_eq] at hrereads
  exact ⟨_, ReadAs.front ((hopen.thenSilent hts).thenSilent hclose) (by simp) hf.toReadAs rfl
    (by simp) rfl (back_cast hk hv hahead hrereads hf.how)⟩

theorem unaryForm_yields (hoperand : Yields all 13 operand) (hnested : Yields all 0 nested)
    (hargument : Yields all 1 argument) : Yields all 13 (unaryForm operand nested argument) := by
  intro s e s' w h
  obtain ⟨t, ht, h⟩ := current_bind h
  cases hop : prefixOp? t.kind with
  | some op =>
    rw [hop] at h
    have hk : t.kind ≠ .eof := fun hk => by simp [hk, prefixOp?] at hop
    obtain ⟨s₁, hpass, h⟩ := advance_bind h w ht hk
    obtain ⟨f, s₂, ts, hf, h⟩ := hoperand.bind hpass.within h
    cases h
    exact ⟨_, ReadAs.front hpass List.prefix_rfl hf.toReadAs rfl (by simp) rfl
      (back_prefixed hop (hpass.names_eq ▸ hf.how))⟩
  | none =>
    rw [hop] at h
    by_cases hsizeof : t.kind = .word .kwSizeof
    · simp only [if_pos hsizeof] at h
      exact sizeofForm_inv hoperand w ht hsizeof h
    · simp only [if_neg hsizeof] at h
      by_cases hparen : t.kind = .punct .leftParen
      · simp only [if_pos hparen] at h
        obtain ⟨u, hu, h⟩ := typeFollows_bind h
        cases hb : startsType s.scopes u with
        | true =>
          rw [hb] at h
          exact castForm_inv hoperand w ht hparen hu hb h
        | false =>
          rw [hb] at h
          refine postfixForm_inv hnested hargument w (fun _ u' _ _ hu' => ?_) h
          cases hu.symm.trans hu'
          exact hb
      · simp only [if_neg hparen] at h
        exact postfixForm_inv hnested hargument w
          (fun t' _ ht' hk' _ => absurd (ht.unique ht' ▸ hk') hparen) h

theorem binaryStep_grows {level : Nat} (hlevel : level < 10)
    (hoperand : Yields all (level + 4) operand) :
    Grows all (Chained level) (binaryForm.step operand level) := by
  intro s₀ ts e s r s' hread h
  obtain ⟨t, k, ht, hk, h⟩ := currentKind_bind h
  cases hop : binaryOp? level k with
  | none =>
    rw [hop] at h
    cases h
    exact .inl ⟨rfl, rfl⟩
  | some op =>
    rw [hop] at h
    have hne : t.kind ≠ .eof := fun heof => by simp [← hk, heof, binaryOp?] at hop
    obtain ⟨s₁, hpass, h⟩ := advance_bind h hread.within ht hne
    obtain ⟨f, s₂, us, hf, h⟩ := hoperand.bind hpass.within h
    cases h
    have how := hread.how.snoc (hk ▸ hop) (hpass.names_eq ▸ hf.how)
    exact .inr ⟨_, _, rfl, hread.merge hpass hf.toReadAs rfl (fun _ => by simp [silent])
      (hread.rowThen hpass hf.row) how ((how.back hlevel).mono (by omega) (by omega))⟩

theorem binaryForm_yields {level : Nat} (hlevel : level < 10)
    (hoperand : Yields all (level + 4) operand) :
    Yields all (level + 3) (binaryForm level operand) := by
  intro s e s' w h
  obtain ⟨first, s₁, ts, hfirst, h⟩ := hoperand.bind w h
  obtain ⟨us, hus⟩ := extend_inv (binaryStep_grows hlevel hoperand)
    (hfirst.imp fun _ _ hback => hback.chained) h
  exact ⟨us, hus.imp fun _ _ hchained => hchained.back hlevel⟩

theorem conditionalForm_yields {test otherwise : Parser Expr} (htest : Yields all 3 test)
    (hnested : Yields all 0 nested) (hotherwise : Yields all 2 otherwise) :
    Yields all 2 (conditionalForm test nested otherwise) := by
  intro s e s' w h
  obtain ⟨cond, s₁, ts, hcond, h⟩ := htest.bind w h
  obtain ⟨t, s₂, ht, hquestion, h⟩ | h := accept_bind h hcond.within (by simp)
  · obtain ⟨yes, s₃, us, hyes, h⟩ := hnested.bind hquestion.within h
    obtain ⟨u, s₄, hu, hcolon, h⟩ := expectPunct_bind h hyes.within
    obtain ⟨no, s₅, vs, hno, h⟩ := hotherwise.bind hcolon.within h
    cases h
    have how := back_conditional ht hu hcond.how (hquestion.names_eq ▸ hyes.how)
      (hcolon.names_eq ▸ hno.how)
    have hrow : Row all (ts ++ ([t] ++ us ++ [u]) ++ vs) s.scopes [cond, yes, no] := by
      simpa using hcond.rowThen hquestion (hyes.rowThen hcolon hno.row)
    exact ⟨_, hcond.merge ((hquestion.afterSilent hyes.toPasses).thenSilent hcolon) hno.toReadAs
      rfl (fun _ => by simp) hrow how (how.mono (by omega) (by omega))⟩
  · cases h
    exact ⟨ts, hcond.imp fun _ _ hback => hback.mono (by omega) (by omega)⟩

theorem assignmentForm_yields {target value : Parser Expr} (htarget : Yields all 2 target)
    (hvalue : Yields all 1 value) : Yields all 1 (assignmentForm target value) := by
  intro s e s' w h
  obtain ⟨lhs, s₁, ts, hlhs, h⟩ := htarget.bind w h
  obtain ⟨t, k, ht, hk, h⟩ := currentKind_bind h
  cases hop : assignOp? k with
  | none =>
    rw [hop] at h
    cases h
    exact ⟨ts, hlhs.imp fun _ _ hback => hback.mono (by omega) (by omega)⟩
  | some op =>
    rw [hop] at h
    have hne : t.kind ≠ .eof := fun heof => by simp [← hk, heof, assignOp?] at hop
    obtain ⟨s₂, hpass, h⟩ := advance_bind h hlhs.within ht hne
    obtain ⟨rhs, s₃, us, hrhs, h⟩ := hvalue.bind hpass.within h
    cases h
    have how := back_assign (hk ▸ hop) hlhs.how (hpass.names_eq ▸ hrhs.how)
    exact ⟨_, hlhs.merge hpass hrhs.toReadAs rfl (fun _ => by simp [silent])
      (hlhs.rowThen hpass hrhs.row) how (how.mono (by omega) (by omega))⟩

theorem sequenceForm_yields {item : Parser Expr} (hitem : Yields all 1 item) :
    Yields all 0 (sequenceForm item) := by
  intro s e s' w h
  obtain ⟨es, s₁, hes, h⟩ := bind_inv h
  obtain ⟨first, rest, s₂, ts, us, rfl, hfirst, hrest⟩ := commaSeparated_inv hitem w hes
  cases rest with
  | nil =>
    obtain ⟨rfl, rfl⟩ := hrest.stays rfl
    cases h
    exact ⟨ts, hfirst.imp fun _ _ hback => hback.mono (by omega) (by omega)⟩
  | cons second rest =>
    cases spanFrom_bind h
    have how := hrest.listed.back hfirst.how s.previous
    rw [← (hfirst.toPasses.trans hrest.toPasses).previous_eq] at how
    exact ⟨_, hfirst.extend hrest.toPasses rfl (fun _ => by simp)
      (hfirst.row.append hfirst.runs hrest.row) how how⟩

def Form.rank : Form → Nat
  | .sequence => 0
  | .assignment => 1
  | .conditional => 2
  | .binary l => min (l + 3) 13
  | .unary => 13

theorem form_yields (n : Nat) (f : Form) : Yields all f.rank (form n f) := by
  induction n generalizing f with
  | zero => exact fun _ _ _ _ h => absurd h fail_inv
  | succ n ih =>
    cases f with
    | sequence => exact sequenceForm_yields (ih .assignment)
    | assignment => exact assignmentForm_yields (ih .conditional) (ih .assignment)
    | conditional => exact conditionalForm_yields (ih (.binary 0)) (ih .sequence) (ih .conditional)
    | binary level =>
      have hoperand := ih (.binary (level + 1))
      have hunary := ih .unary
      simp only [Form.rank] at hoperand hunary ⊢
      rw [form]
      by_cases hlevel : level < binaryLevels
      · have hlt : level < 10 := hlevel
        rw [if_pos hlevel]
        rw [min_eq_left (by omega)] at hoperand ⊢
        exact binaryForm_yields hlt hoperand
      · have hle : 10 ≤ level := Nat.le_of_not_lt hlevel
        rw [if_neg hlevel, min_eq_right (by omega)]
        exact hunary
    | unary => exact unaryForm_yields (ih .unary) (ih .sequence) (ih .assignment)

theorem formOf_yields (f : Form) : Yields all f.rank (formOf f) := by
  intro s e s' w h
  obtain ⟨n, h⟩ := remaining_bind h
  exact form_yields _ f w h

/-- An expression of any strength passes the events of its names. -/
theorem formOf_walks (f : Form) : Walks all (formOf f) fun e _ => e.events all := by
  intro s e s' w h
  obtain ⟨ts, hts⟩ := formOf_yields f w h
  exact ⟨ts, hts.toPasses⟩

end Operators

end Grammar

end LoopLegality

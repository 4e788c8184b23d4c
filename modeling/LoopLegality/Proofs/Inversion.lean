import LoopLegality.Proofs.Places

namespace LoopLegality.Grammar

open Token (Ordered Covers nameFrom firstName)

/-- A state in the middle of a text with the tokens `all`. -/
structure Within (all : List Token) (s : State) : Prop where
  ordered : Ordered all
  tokens : s.tokens <:+ all
  ending : ∀ eof, s.ending = .ok eof → eof.IsEnd

/-- The way from one state to another: the tokens in between, and the events of their names.
A declarator is named by the place that the table of all bindings gives it, so events depend on
a table that extends the one here. -/
structure Passes (all : List Token) (s : State) (ts : List Token) (es : SymbolTable → List Event)
    (s' : State) : Prop where
  start : Within all s
  tokens : s.tokens = ts ++ s'.tokens
  previous : s'.previous = (ts.getLast?.map Token.span).getD s.previous
  ending : s'.ending = s.ending
  scopes : ∀ table, s'.scopes.table.Extends table → Scopes.Runs s.scopes (es table) s'.scopes

def silent : SymbolTable → List Event := fun _ => []

namespace Passes

variable {all ts us : List Token} {es fs : SymbolTable → List Event} {s s' s'' : State} {a : Span}

theorem refl (w : Within all s) : Passes all s [] silent s :=
  ⟨w, rfl, rfl, rfl, fun _ _ => .nil _⟩

theorem within (h : Passes all s ts es s') : Within all s' where
  ordered := h.start.ordered
  tokens := (List.suffix_append ts s'.tokens).trans (h.tokens ▸ h.start.tokens)
  ending eof heof := h.start.ending eof (h.ending ▸ heof)

theorem congr (h : Passes all s ts es s') (hes : ∀ table, es table = fs table) :
    Passes all s ts fs s' :=
  funext hes ▸ h

theorem trans (h : Passes all s ts es s') (h' : Passes all s' us fs s'') :
    Passes all s (ts ++ us) (fun table => es table ++ fs table) s'' where
  start := h.start
  tokens := by rw [h.tokens, h'.tokens, List.append_assoc]
  previous := by
    rw [h'.previous, h.previous, List.getLast?_append]
    cases us.getLast? <;> rfl
  ending := h'.ending.trans h.ending
  scopes table htable :=
    have hrun := h'.scopes table htable
    (h.scopes table (hrun.extends.trans htable)).trans hrun

theorem thenSilent (h : Passes all s ts es s') (h' : Passes all s' us silent s'') :
    Passes all s (ts ++ us) es s'' :=
  (h.trans h').congr fun _ => List.append_nil _

theorem afterSilent (h : Passes all s ts silent s') (h' : Passes all s' us fs s'') :
    Passes all s (ts ++ us) fs s'' :=
  h.trans h'

theorem ordered (h : Passes all s ts es s') : Ordered ts := by
  refine h.start.ordered.of_infix (.trans ?_ h.start.tokens.isInfix)
  rw [h.tokens]
  exact (List.prefix_append ts s'.tokens).isInfix

theorem mem {t : Token} (h : Passes all s [t] es s') : t ∈ all :=
  h.start.tokens.subset (by simp [h.tokens])

theorem covers_spanFrom (h : Passes all s us es s') (ha : Covers a ts) (hts : ts <+: us) :
    Covers (a.merge s'.previous) us := by
  have hne : us ≠ [] := by
    rintro rfl
    exact ha.ne_nil (List.prefix_nil.mp hts)
  obtain ⟨us', t, rfl⟩ := (List.eq_nil_or_concat us).resolve_left hne
  rw [List.concat_eq_append] at h hts ⊢
  have hlast : Covers s'.previous [t] := by simpa [h.previous] using Token.covers_singleton t
  exact ha.merge hlast h.ordered hts (List.suffix_append us' [t])

theorem nameFrom_first (h : Passes all s ts es s') (ha : Covers a ts) :
    nameFrom a.first.offset all = firstName s.tokens := by
  rw [h.tokens]
  exact ha.nameFrom_first h.start.ordered (h.tokens ▸ h.start.tokens)

theorem nameFrom_last (h : Passes all s ts es s') (ha : Covers a ts) :
    nameFrom a.last.offset all = firstName s'.tokens :=
  ha.nameFrom_last h.start.ordered (h.tokens ▸ h.start.tokens)

end Passes

section Primitives

variable {α β : Type} {all : List Token} {s s' : State} {t : Token} {r : β × State}

theorem bind_inv {p : Parser α} {f : α → Parser β} (h : (p >>= f) s = .ok r) :
    ∃ a s₁, p s = .ok (a, s₁) ∧ f a s₁ = .ok r := by
  have h' : StateT.bind p f s = .ok r := h
  rw [StateT.bind] at h'
  cases hp : p s with
  | error e => simp [hp, bind, Except.bind] at h'
  | ok q => exact ⟨q.1, q.2, rfl, by simpa [hp, bind, Except.bind] using h'⟩

def Heads (s : State) (t : Token) : Prop := headToken s.tokens s.ending = .ok t

theorem Heads.unique {u : Token} (ht : Heads s t) (hu : Heads s u) : t = u :=
  Except.ok.inj (ht.symm.trans hu)

theorem Passes.heads {es : SymbolTable → List Event} (h : Passes all s [t] es s') : Heads s t := by
  rw [Heads, h.tokens]
  rfl

theorem Heads.passes {es : SymbolTable → List Event} (ht : Heads s t) (h : Passes all s [] es s') :
    Heads s' t := by
  rw [Heads, h.ending, ← List.nil_append s'.tokens, ← h.tokens]
  exact ht

theorem current_bind {f : Token → Parser β} (h : (current >>= f) s = .ok r) :
    ∃ t, Heads s t ∧ f t s = .ok r := by
  obtain ⟨t, s₁, ht, h⟩ := bind_inv h
  rw [current] at ht
  cases hhead : headToken s.tokens s.ending with
  | error e => simp [hhead, bind, Except.bind] at ht
  | ok u =>
    rw [hhead] at ht
    cases ht
    exact ⟨t, hhead, h⟩

theorem peek_bind {f : Token → Parser β} (h : (peek >>= f) s = .ok r) :
    ∃ t, headToken s.tokens.tail s.ending = .ok t ∧ f t s = .ok r := by
  obtain ⟨t, s₁, ht, h⟩ := bind_inv h
  rw [peek] at ht
  cases hhead : headToken s.tokens.tail s.ending with
  | error e => simp [hhead, bind, Except.bind] at ht
  | ok u =>
    rw [hhead] at ht
    cases ht
    exact ⟨t, rfl, h⟩

theorem currentKind_bind {f : Token.Kind → Parser β} (h : (currentKind >>= f) s = .ok r) :
    ∃ t k, Heads s t ∧ t.kind = k ∧ f k s = .ok r := by
  obtain ⟨k, s₁, hkind, h⟩ := bind_inv h
  obtain ⟨t, ht, hkind⟩ := current_bind hkind
  cases hkind
  exact ⟨t, _, ht, rfl, h⟩

theorem currentSpan_bind {f : Span → Parser β} (h : (currentSpan >>= f) s = .ok r) :
    ∃ t, Heads s t ∧ f t.span s = .ok r := by
  obtain ⟨k, s₁, hspan, h⟩ := bind_inv h
  obtain ⟨t, ht, hspan⟩ := current_bind hspan
  cases hspan
  exact ⟨t, ht, h⟩

theorem spanFrom_bind {a : Span} {f : Span → Parser β} (h : (spanFrom a >>= f) s = .ok r) :
    f (a.merge s.previous) s = .ok r := by
  obtain ⟨b, s₁, hspan, h⟩ := bind_inv h
  cases hspan
  exact h

theorem remaining_bind {f : Nat → Parser β} (h : (remaining >>= f) s = .ok r) :
    ∃ n, f n s = .ok r := by
  obtain ⟨n, s₁, hremaining, h⟩ := bind_inv h
  cases hremaining
  exact ⟨_, h⟩

theorem scopes_bind {f : Scopes → Parser β} (h : (scopes >>= f) s = .ok r) :
    f s.scopes s = .ok r := by
  obtain ⟨sc, s₁, hscopes, h⟩ := bind_inv h
  cases hscopes
  exact h

theorem fail_inv {cause : ParseError.Cause} : fail cause s ≠ .ok r := by
  intro h
  obtain ⟨t, -, h⟩ := current_bind h
  cases h

theorem check_bind {k : Token.Kind} {f : Bool → Parser β} (h : (check k >>= f) s = .ok r) :
    ∃ t, Heads s t ∧ (t.kind = k ∧ f true s = .ok r ∨ t.kind ≠ k ∧ f false s = .ok r) := by
  obtain ⟨b, s₁, hcheck, h⟩ := bind_inv h
  obtain ⟨t, _, ht, rfl, hcheck⟩ := currentKind_bind hcheck
  cases hcheck
  by_cases hk : t.kind = k
  · exact ⟨t, ht, .inl ⟨hk, by simpa [hk] using h⟩⟩
  · exact ⟨t, ht, .inr ⟨hk, by simpa [hk] using h⟩⟩

theorem typeFollows_bind {f : Bool → Parser β} (h : (typeFollows >>= f) s = .ok r) :
    ∃ t, headToken s.tokens.tail s.ending = .ok t ∧ f (startsType s.scopes t) s = .ok r := by
  obtain ⟨b, s₁, hfollows, h⟩ := bind_inv h
  obtain ⟨t, ht, hfollows⟩ := peek_bind hfollows
  cases scopes_bind hfollows
  exact ⟨t, ht, h⟩

theorem atType_head {f : Bool → Parser β} (h : (atType >>= f) s = .ok r) :
    ∃ t, Heads s t ∧ f (startsType s.scopes t) s = .ok r := by
  obtain ⟨b, s₁, htype, h⟩ := bind_inv h
  obtain ⟨t, ht, htype⟩ := current_bind (scopes_bind htype)
  cases htype
  exact ⟨t, ht, h⟩

theorem startsType_eof {sc : Scopes} (hk : t.kind = .eof) : startsType sc t = false := by
  simp [startsType, hk, Token.Kind.isTypeWord]

theorem atType_bind {f : Bool → Parser β} (h : (atType >>= f) s = .ok r) :
    (∃ t, Heads s t ∧ t.kind ≠ .eof ∧ f true s = .ok r) ∨ f false s = .ok r := by
  obtain ⟨t, ht, h⟩ := atType_head h
  cases htype : startsType s.scopes t with
  | false => exact .inr (htype ▸ h)
  | true => exact .inl ⟨t, ht, fun hk => by simp [startsType_eof hk] at htype, htype ▸ h⟩

theorem Heads.tokens (ht : Heads s t) (w : Within all s) (hk : t.kind ≠ .eof) :
    ∃ rest, s.tokens = t :: rest := by
  rw [Heads] at ht
  cases hs : s.tokens with
  | cons u rest =>
    simp only [hs, headToken, Except.ok.injEq] at ht
    exact ⟨rest, by rw [ht]⟩
  | nil =>
    cases he : s.ending with
    | error e => simp [hs, he, headToken] at ht
    | ok eof =>
      simp only [hs, he, headToken, Except.ok.injEq] at ht
      exact absurd (ht ▸ (w.ending eof he).1) hk

theorem advance_inv {u : Unit} (h : advance s = .ok (u, s')) (w : Within all s) (ht : Heads s t)
    (hk : t.kind ≠ .eof) : Passes all s [t] silent s' := by
  obtain ⟨rest, hrest⟩ := ht.tokens w hk
  rw [Heads] at ht
  rw [advance, ht, hrest, List.tail_cons] at h
  cases hnext : headToken rest s.ending with
  | error e => simp [hnext, bind, Except.bind] at h
  | ok v =>
    simp only [hnext, bind, Except.bind, pure, Except.pure, Except.ok.injEq, Prod.mk.injEq] at h
    obtain ⟨-, rfl⟩ := h
    exact ⟨w, hrest, rfl, rfl, fun _ _ => .nil _⟩

theorem advance_bind {f : Unit → Parser β} (h : (advance >>= f) s = .ok r) (w : Within all s)
    (ht : Heads s t) (hk : t.kind ≠ .eof) :
    ∃ s₁, Passes all s [t] silent s₁ ∧ f () s₁ = .ok r := by
  obtain ⟨_, s₁, hadvance, h⟩ := bind_inv h
  exact ⟨s₁, advance_inv hadvance w ht hk, h⟩

theorem accept_bind {k : Token.Kind} {f : Bool → Parser β} (h : (accept k >>= f) s = .ok r)
    (w : Within all s) (hk : k ≠ .eof) :
    (∃ t s₁, t.kind = k ∧ Passes all s [t] silent s₁ ∧ f true s₁ = .ok r) ∨
      f false s = .ok r := by
  obtain ⟨b, s₁, haccept, h⟩ := bind_inv h
  obtain ⟨t, ht, ⟨htk, haccept⟩ | ⟨-, haccept⟩⟩ := check_bind haccept
  · obtain ⟨s₂, hpass, haccept⟩ := advance_bind haccept w ht (htk ▸ hk)
    cases haccept
    exact .inl ⟨t, _, htk, hpass, h⟩
  · cases haccept
    exact .inr h

theorem expect_inv {k : Token.Kind} {place : String} {u : Unit}
    (h : expect k place s = .ok (u, s')) (w : Within all s) (hk : k ≠ .eof) :
    ∃ t, t.kind = k ∧ Passes all s [t] silent s' := by
  obtain ⟨t, ht, ⟨htk, h⟩ | ⟨-, h⟩⟩ := check_bind h
  · exact ⟨t, htk, advance_inv h w ht (htk ▸ hk)⟩
  · exact absurd h fail_inv

theorem expect_bind {k : Token.Kind} {place : String} {f : Unit → Parser β}
    (h : (expect k place >>= f) s = .ok r) (w : Within all s) (hk : k ≠ .eof) :
    ∃ t s₁, t.kind = k ∧ Passes all s [t] silent s₁ ∧ f () s₁ = .ok r := by
  obtain ⟨_, s₁, hexpect, h⟩ := bind_inv h
  obtain ⟨t, hk, ht⟩ := expect_inv hexpect w hk
  exact ⟨t, s₁, hk, ht, h⟩

theorem expectPunct_bind {p : Punct} {place : String} {f : Unit → Parser β}
    (h : (expectPunct p place >>= f) s = .ok r) (w : Within all s) :
    ∃ t s₁, t.kind = .punct p ∧ Passes all s [t] silent s₁ ∧ f () s₁ = .ok r :=
  expect_bind h w nofun

theorem lexemeAndAdvance_inv {name : String} (h : lexemeAndAdvance s = .ok (name, s'))
    (w : Within all s) (ht : Heads s t) (hk : t.kind ≠ .eof) :
    name = t.lexeme ∧ Passes all s [t] silent s' := by
  obtain ⟨u, hu, h⟩ := current_bind h
  obtain rfl := ht.unique hu
  obtain ⟨s₁, hpass, h⟩ := advance_bind h w ht hk
  cases h
  exact ⟨rfl, hpass⟩

theorem lexemeAndAdvance_bind {f : String → Parser β} (h : (lexemeAndAdvance >>= f) s = .ok r)
    (w : Within all s) (ht : Heads s t) (hk : t.kind ≠ .eof) :
    ∃ s₁, Passes all s [t] silent s₁ ∧ f t.lexeme s₁ = .ok r := by
  obtain ⟨_, s₁, hlexeme, h⟩ := bind_inv h
  obtain ⟨rfl, hpass⟩ := lexemeAndAdvance_inv hlexeme w ht hk
  exact ⟨s₁, hpass, h⟩

theorem expectName_bind {what : String} {f : String → Parser β}
    (h : (expectName what >>= f) s = .ok r) (w : Within all s) :
    ∃ t s₁, t.kind = .identifier ∧ Passes all s [t] silent s₁ ∧ f t.lexeme s₁ = .ok r := by
  obtain ⟨name, s₁, hname, h⟩ := bind_inv h
  obtain ⟨t, ht, hname⟩ := current_bind hname
  by_cases hk : t.kind = .identifier
  · rw [if_pos hk] at hname
    obtain ⟨s₂, hpass, hname⟩ := advance_bind hname w ht (by simp [hk])
    cases hname
    exact ⟨t, _, hk, hpass, h⟩
  · rw [if_neg hk] at hname
    exact absurd hname fail_inv

theorem Within.step {es : List Event} {sc : Scopes} (w : Within all s)
    (h : Scopes.Step s.scopes es sc) : Passes all s [] (fun _ => es) { s with scopes := sc } :=
  ⟨w, rfl, rfl, rfl, fun _ _ => h.runs⟩

theorem modifyScopes_bind {g : Scopes → Scopes} {f : Unit → Parser β}
    (h : (modifyScopes g >>= f) s = .ok r) : f () { s with scopes := g s.scopes } = .ok r := by
  obtain ⟨_, s₁, hmodify, h⟩ := bind_inv h
  cases hmodify
  exact h

theorem bindName_bind {g : Scopes → Symbol × Scopes} {f : Symbol → Parser β}
    (h : (bindName g >>= f) s = .ok r) :
    f (g s.scopes).1 { s with scopes := (g s.scopes).2 } = .ok r := by
  obtain ⟨x, s₁, hname, h⟩ := bind_inv h
  cases hname
  exact h

end Primitives

section Combinators

variable {α β : Type} {all : List Token}

/-- A parser that, on success, has passed the events of what it yields. -/
def Walks (all : List Token) (p : Parser α) (es : α → SymbolTable → List Event) : Prop :=
  ∀ ⦃s a s'⦄, Within all s → p s = .ok (a, s') → ∃ ts, Passes all s ts (es a) s'

theorem Walks.bind {p : Parser α} {es : α → SymbolTable → List Event} {f : α → Parser β}
    {s : State} {r : β × State} (hp : Walks all p es) (w : Within all s)
    (h : (p >>= f) s = .ok r) : ∃ a s₁ ts, Passes all s ts (es a) s₁ ∧ f a s₁ = .ok r := by
  obtain ⟨a, s₁, ha, h⟩ := bind_inv h
  obtain ⟨ts, hts⟩ := hp w ha
  exact ⟨a, s₁, ts, hts, h⟩

theorem repeatStep_walks {step : Parser (Option α)} {es : α → SymbolTable → List Event}
    (hstep : Walks all step fun r table => r.elim [] (es · table)) (n : Nat) :
    Walks all (repeatStep step n) fun as table => as.flatMap (es · table) := by
  induction n with
  | zero =>
    intro s as s' w h
    cases h
    exact ⟨[], .refl w⟩
  | succ n ih =>
    intro s as s' w h
    obtain ⟨r, s₁, ts, hts, h⟩ := hstep.bind w h
    cases r with
    | none =>
      cases h
      exact ⟨ts, hts⟩
    | some a =>
      obtain ⟨bs, s₂, us, hus, h⟩ := ih.bind hts.within h
      cases h
      exact ⟨ts ++ us, hts.trans hus⟩

theorem many_walks {step : Parser (Option α)} {es : α → SymbolTable → List Event}
    (hstep : Walks all step fun r table => r.elim [] (es · table)) :
    Walks all (many step) fun as table => as.flatMap (es · table) := by
  intro s as s' w h
  obtain ⟨n, h⟩ := remaining_bind h
  exact repeatStep_walks hstep _ w h

def Quiet (all : List Token) (p : Parser α) : Prop := Walks all p fun _ => silent

theorem Quiet.bind {p : Parser α} {f : α → Parser β} {s : State} {r : β × State}
    (hp : Quiet all p) (w : Within all s) (h : (p >>= f) s = .ok r) :
    ∃ a s₁ ts, Passes all s ts silent s₁ ∧ f a s₁ = .ok r :=
  Walks.bind hp w h

theorem repeatStep_quiet {step : Parser (Option α)} (hstep : Quiet all step) (n : Nat) :
    Quiet all (repeatStep step n) := by
  intro s as s' w h
  have hwalk : Walks all step fun r table => r.elim [] fun _ => silent table := by
    intro s r s' w h
    obtain ⟨ts, hts⟩ := hstep w h
    exact ⟨ts, hts.congr fun _ => by cases r <;> rfl⟩
  obtain ⟨ts, hts⟩ := repeatStep_walks hwalk n w h
  exact ⟨ts, hts.congr fun _ => by simp [silent]⟩

theorem many_quiet {step : Parser (Option α)} (hstep : Quiet all step) :
    Quiet all (many step) := by
  intro s as s' w h
  obtain ⟨n, h⟩ := remaining_bind h
  exact repeatStep_quiet hstep _ w h

theorem commaItem_walks {item : Parser α} {es : α → SymbolTable → List Event}
    (hitem : Walks all item es) :
    Walks all (commaItem item) fun r table => r.elim [] (es · table) := by
  intro s r s' w h
  obtain ⟨t, s₁, -, ht, h⟩ | h := accept_bind h w nofun
  · obtain ⟨a, s₂, ts, hts, h⟩ := hitem.bind ht.within h
    cases h
    exact ⟨[t] ++ ts, ht.afterSilent hts⟩
  · cases h
    exact ⟨[], .refl w⟩

theorem commaSeparated_walks {item : Parser α} {es : α → SymbolTable → List Event}
    (hitem : Walks all item es) :
    Walks all (commaSeparated item) fun as table => as.flatMap (es · table) := by
  intro s as s' w h
  obtain ⟨a, s₁, ts, hts, h⟩ := hitem.bind w h
  obtain ⟨bs, s₂, us, hus, h⟩ := (many_walks (commaItem_walks hitem)).bind hts.within h
  cases h
  exact ⟨ts ++ us, hts.trans hus⟩

end Combinators

end LoopLegality.Grammar

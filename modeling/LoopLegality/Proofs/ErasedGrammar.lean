import LoopLegality.Grammar.Program
import LoopLegality.Proofs.ErasedAnalysis

namespace LoopLegality

@[simps] def Token.erase (t : Token) : Token := { t with span := .none }

@[simps] def LexError.erase (e : LexError) : LexError := { e with span := .none }

def SourceError.erase : SourceError → SourceError
  | lex e => lex e.erase
  | parse e => parse { e with span := .none }

/-- The kinds and the lexemes of the tokens of a text, and how it ends. -/
@[simps] def Token.Scan.erase (s : Token.Scan) : Token.Scan where
  tokens := s.tokens.map Token.erase
  ending := mapResult LexError.erase Token.erase s.ending

namespace Scopes

@[simps] def erase (s : Scopes) : Scopes := { s with table := s.table.erase }

variable (s : Scopes)

@[simp] theorem lookup?_erase (name : String) : s.erase.lookup? name = s.lookup? name := rfl

@[simp] theorem push_erase : s.erase.push = s.push.erase := rfl

@[simp] theorem pop_erase : s.erase.pop = s.pop.erase := rfl

theorem declare_erase (name : String) (kind : Symbol.Kind) (span : Span) :
    s.erase.declare name kind .none =
      ((s.declare name kind span).1, (s.declare name kind span).2.erase) := by
  have h := s.table.erase_declare ⟨name, kind, span, s.depth⟩
  cases hb : s.blocks <;> simp_all [declare, erase, depth, Symbol.Info.erase]

theorem resolve_erase (name : String) (kind : Symbol.Kind) :
    s.erase.resolve name kind = ((s.resolve name kind).1, (s.resolve name kind).2.erase) := by
  have h := s.table.erase_declare ⟨name, kind, .none, 0⟩
  simp only [Symbol.Info.erase] at h
  simp only [resolve, lookup?_erase, erase_table]
  cases s.lookup? name with
  | some x => rfl
  | none => simp only [h]; rfl

theorem member_erase (name : String) :
    s.erase.member name = ((s.member name).1, (s.member name).2.erase) := by
  have h := s.table.erase_declare ⟨name, .field, .none, 0⟩
  simp only [Symbol.Info.erase] at h
  simp only [member, erase_members, erase_table]
  cases s.members.lookup name with
  | some x => rfl
  | none => simp only [h]; rfl

theorem refine_erase (x : Symbol) (kind : Symbol.Kind) :
    s.erase.refine x kind = (s.refine x kind).erase := by
  simp [refine, erase, SymbolTable.erase_refine]

end Scopes

namespace Grammar

/-- Two states that differ in places only. -/
structure State.Alike (s t : State) : Prop where
  tokens : s.tokens.map Token.erase = t.tokens.map Token.erase
  ending : mapResult LexError.erase Token.erase s.ending =
    mapResult LexError.erase Token.erase t.ending
  scopes : s.scopes.erase = t.scopes.erase
  nextLoop : s.nextLoop = t.nextLoop

variable {α β : Type} {R : α → α → Prop} {S : β → β → Prop}

/-- Two results that differ in places only, given what that means for their values. -/
inductive SameResult (R : α → α → Prop) :
    Except SourceError (α × State) → Except SourceError (α × State) → Prop
  | ok {a b : α} {s t : State} : R a b → s.Alike t → SameResult R (.ok (a, s)) (.ok (b, t))
  | error {e f : SourceError} : e.erase = f.erase → SameResult R (.error e) (.error f)

/-- Two parsers that do the same where their inputs differ in places only. -/
def Alike (R : α → α → Prop) (p q : Parser α) : Prop :=
  ∀ ⦃s t : State⦄, s.Alike t → SameResult R (p s) (q t)

abbrev Same {γ : Type} (f : α → γ) (a b : α) : Prop := f a = f b

structure SameToken (t u : Token) : Prop where
  kind : t.kind = u.kind
  lexeme : t.lexeme = u.lexeme

namespace Alike

theorem pure {a b : α} (h : R a b) : Alike R (pure a : Parser α) (pure b) :=
  fun _ _ hs => .ok h hs

theorem bind {p q : Parser α} {k l : α → Parser β} (hp : Alike R p q)
    (hk : ∀ a b, R a b → Alike S (k a) (l b)) : Alike S (p >>= k) (q >>= l) := by
  intro s t hs
  show SameResult S (StateT.bind p k s) (StateT.bind q l t)
  have h := hp hs
  rw [StateT.bind, StateT.bind]
  generalize p s = x at h ⊢
  generalize q t = y at h ⊢
  cases h with
  | ok hab hs' => exact hk _ _ hab hs'
  | error he => exact .error he

theorem mono {p q : Parser α} {R' : α → α → Prop} (hp : Alike R p q)
    (h : ∀ a b, R a b → R' a b) : Alike R' p q := by
  intro s t hs
  have h' := hp hs
  generalize p s = x at h' ⊢
  generalize q t = y at h' ⊢
  cases h' with
  | ok hab hs' => exact .ok (h _ _ hab) hs'
  | error he => exact .error he

theorem next {p q : Parser α} {k l : α → Parser β} (hp : Alike Eq p q)
    (hk : ∀ a, Alike S (k a) (l a)) : Alike S (p >>= k) (q >>= l) :=
  hp.bind fun a _ h => h ▸ hk a

theorem map {p q : Parser α} {f g : α → β} (hp : Alike R p q) (h : ∀ a b, R a b → S (f a) (g b)) :
    Alike S (do return f (← p)) (do return g (← q)) :=
  hp.bind fun a b hab => pure (h a b hab)

end Alike

theorem headToken_alike {ts us : List Token} {e f : Except LexError Token}
    (ht : ts.map Token.erase = us.map Token.erase)
    (he : mapResult LexError.erase Token.erase e = mapResult LexError.erase Token.erase f) :
    mapResult SourceError.erase Token.erase (headToken ts e) =
      mapResult SourceError.erase Token.erase (headToken us f) := by
  cases ts <;> cases us <;> simp at ht
  · cases e <;> cases f <;> simp_all [mapResult, headToken, SourceError.erase]
  · simp [mapResult, headToken, ht.1]

theorem headToken_bind_alike {ts us : List Token} {e f : Except LexError Token}
    {k l : Token → Except SourceError (α × State)} (ht : ts.map Token.erase = us.map Token.erase)
    (he : mapResult LexError.erase Token.erase e = mapResult LexError.erase Token.erase f)
    (hk : ∀ a b, SameToken a b → SameResult R (k a) (l b)) :
    SameResult R (headToken ts e >>= k) (headToken us f >>= l) := by
  have h := headToken_alike ht he
  cases hx : headToken ts e with
  | error e =>
    cases hy : headToken us f with
    | error f => exact .error (by simpa [hx, hy, mapResult] using h)
    | ok u => simp [hx, hy, mapResult] at h
  | ok t =>
    cases hy : headToken us f with
    | error f => simp [hx, hy, mapResult] at h
    | ok u =>
      rw [hx, hy] at h
      have h' : t.erase = u.erase := Except.ok.inj h
      exact hk t u ⟨congrArg (·.kind) h', congrArg (·.lexeme) h'⟩

theorem map_tail_alike {ts us : List Token} (h : ts.map Token.erase = us.map Token.erase) :
    ts.tail.map Token.erase = us.tail.map Token.erase := by
  rw [List.map_tail, h, List.map_tail]

theorem current_alike : Alike SameToken current current := fun _ _ hs =>
  headToken_bind_alike hs.tokens hs.ending fun _ _ h => .ok h hs

theorem peek_alike : Alike SameToken peek peek := fun _ _ hs =>
  headToken_bind_alike (map_tail_alike hs.tokens) hs.ending fun _ _ h => .ok h hs

theorem advance_alike : Alike Eq advance advance := fun _ _ hs =>
  headToken_bind_alike hs.tokens hs.ending fun _ _ _ =>
    headToken_bind_alike (map_tail_alike hs.tokens) hs.ending fun _ _ _ =>
      .ok rfl ⟨map_tail_alike hs.tokens, hs.ending, hs.scopes, hs.nextLoop⟩

theorem remaining_alike : Alike Eq remaining remaining := fun s t hs =>
  .ok (by simpa using congrArg List.length hs.tokens) hs

theorem scopes_alike : Alike (Same Scopes.erase) scopes scopes := fun _ _ hs => .ok hs.scopes hs

theorem currentSpan_alike : Alike (fun _ _ => True) currentSpan currentSpan :=
  current_alike.map fun _ _ _ => trivial

theorem spanFrom_alike (a b : Span) : Alike (fun _ _ => True) (spanFrom a) (spanFrom b) :=
  fun _ _ hs => .ok trivial hs

theorem currentKind_alike : Alike Eq currentKind currentKind :=
  current_alike.map fun _ _ h => h.kind

theorem fail_alike (cause : ParseError.Cause) : Alike R (fail cause) (fail cause) := by
  refine current_alike.bind fun a b h s t _ => .error ?_
  simp [SourceError.erase, h.kind]

theorem check_alike (kind : Token.Kind) : Alike Eq (check kind) (check kind) :=
  currentKind_alike.map fun _ _ h => by rw [h]

theorem accept_alike (kind : Token.Kind) : Alike Eq (accept kind) (accept kind) := by
  refine (check_alike kind).next fun b => ?_
  cases b with
  | false => exact .pure rfl
  | true => exact advance_alike.next fun _ => .pure rfl

theorem expect_alike (kind : Token.Kind) (place : String) :
    Alike Eq (expect kind place) (expect kind place) := by
  refine (check_alike kind).next fun b => ?_
  cases b with
  | false => exact fail_alike _
  | true => exact advance_alike

theorem expectName_alike (what : String) : Alike Eq (expectName what) (expectName what) := by
  refine current_alike.bind fun t u h => ?_
  rw [h.kind, h.lexeme]
  split
  · exact advance_alike.next fun _ => .pure rfl
  · exact fail_alike _

theorem lexemeAndAdvance_alike : Alike Eq lexemeAndAdvance lexemeAndAdvance :=
  current_alike.bind fun _ _ h => advance_alike.next fun _ => .pure h.lexeme

theorem modifyScopes_alike {f g : Scopes → Scopes}
    (h : ∀ a b : Scopes, Same Scopes.erase a b → Same Scopes.erase (f a) (g b)) :
    Alike Eq (modifyScopes f) (modifyScopes g) := fun _ _ hs =>
  .ok rfl ⟨hs.tokens, hs.ending, h _ _ hs.scopes, hs.nextLoop⟩

theorem bindName_alike (h : Scopes → Symbol × Scopes) {f g : Scopes → Symbol × Scopes}
    (hf : ∀ a : Scopes, h a.erase = ((f a).1, (f a).2.erase))
    (hg : ∀ a : Scopes, h a.erase = ((g a).1, (g a).2.erase)) :
    Alike Eq (bindName f) (bindName g) := by
  intro s t hs
  have hfg := hf s.scopes
  rw [hs.scopes, hg t.scopes] at hfg
  obtain ⟨hsymbol, hscopes⟩ := Prod.mk.inj hfg
  exact .ok hsymbol.symm ⟨hs.tokens, hs.ending, hscopes.symm, hs.nextLoop⟩

theorem declareName_alike (name : String) (kind : Symbol.Kind) (s t : Span) :
    Alike Eq (bindName (·.declare name kind s)) (bindName (·.declare name kind t)) :=
  bindName_alike (·.declare name kind .none) (·.declare_erase name kind s)
    (·.declare_erase name kind t)

theorem resolveName_alike (name : String) (kind : Symbol.Kind) :
    Alike Eq (bindName (·.resolve name kind)) (bindName (·.resolve name kind)) :=
  bindName_alike (·.resolve name kind) (·.resolve_erase name kind) (·.resolve_erase name kind)

theorem memberName_alike (name : String) :
    Alike Eq (bindName (·.member name)) (bindName (·.member name)) :=
  bindName_alike (·.member name) (·.member_erase name) (·.member_erase name)

theorem lookup?_of_same {a b : Scopes} (h : Same Scopes.erase a b) (name : String) :
    a.lookup? name = b.lookup? name := by
  rw [← a.lookup?_erase, h, b.lookup?_erase]

theorem refine_of_same (x : Symbol) (kind : Symbol.Kind) (a b : Scopes)
    (h : Same Scopes.erase a b) : Same Scopes.erase (a.refine x kind) (b.refine x kind) := by
  rw [Same, ← a.refine_erase, h, b.refine_erase]

theorem startsType_alike {a b : Scopes} {t u : Token} (hs : Same Scopes.erase a b)
    (ht : SameToken t u) : startsType a t = startsType b u := by
  rw [startsType, startsType, ht.kind, ht.lexeme, lookup?_of_same hs]

theorem atType_alike : Alike Eq atType atType :=
  scopes_alike.bind fun _ _ hs => current_alike.map fun _ _ ht => startsType_alike hs ht

theorem typeFollows_alike : Alike Eq typeFollows typeFollows :=
  peek_alike.bind fun _ _ ht => scopes_alike.map fun _ _ hs => startsType_alike hs ht

section Repetition

variable {γ : Type} {f : α → γ}

theorem repeatStep_alike {p q : Parser (Option α)} (h : Alike (Same (Option.map f)) p q)
    (n : Nat) : Alike (Same (List.map f)) (repeatStep p n) (repeatStep q n) := by
  induction n with
  | zero => exact .pure rfl
  | succ n ih =>
    refine h.bind fun a b hab => ?_
    match a, b, hab with
    | none, none, _ => exact .pure rfl
    | some a, some b, hab =>
      refine ih.map fun as bs hs => ?_
      rw [Same, List.map_cons, List.map_cons, Option.some.inj hab, hs]

theorem many_alike {p q : Parser (Option α)} (h : Alike (Same (Option.map f)) p q) :
    Alike (Same (List.map f)) (many p) (many q) :=
  remaining_alike.next fun n => repeatStep_alike h (n + 1)

theorem many_alike_eq {p q : Parser (Option α)} (h : Alike Eq p q) : Alike Eq (many p) (many q) :=
  (many_alike (h.mono fun _ _ hab => congrArg (Option.map id) hab)).mono
    fun as bs hs => by rwa [Same, List.map_id, List.map_id] at hs

theorem extendStep_alike {p q : α → Parser (Option α)}
    (h : ∀ a b, Same f a b → Alike (Same (Option.map f)) (p a) (q b)) (n : Nat) {a b : α}
    (hab : Same f a b) : Alike (Same f) (extendStep p n a) (extendStep q n b) := by
  induction n generalizing a b with
  | zero => exact .pure hab
  | succ n ih =>
    refine (h a b hab).bind fun a' b' hab' => ?_
    match a', b', hab' with
    | none, none, _ => exact .pure hab
    | some a', some b', hab' => exact ih (Option.some.inj hab')

theorem extend_alike {p q : α → Parser (Option α)}
    (h : ∀ a b, Same f a b → Alike (Same (Option.map f)) (p a) (q b)) {a b : α}
    (hab : Same f a b) : Alike (Same f) (extend p a) (extend q b) :=
  remaining_alike.next fun n => extendStep_alike h (n + 1) hab

theorem commaItem_alike {p q : Parser α} (h : Alike (Same f) p q) :
    Alike (Same (Option.map f)) (commaItem p) (commaItem q) := by
  refine (accept_alike _).next fun comma => ?_
  cases comma with
  | false => exact .pure rfl
  | true => exact h.map fun a b hab => congrArg some hab

theorem commaSeparated_alike {p q : Parser α} (h : Alike (Same f) p q) :
    Alike (Same (List.map f)) (commaSeparated p) (commaSeparated q) := by
  refine h.bind fun a b hab => (many_alike (commaItem_alike h)).map fun as bs hs => ?_
  rw [Same, List.map_cons, List.map_cons, hab, hs]

end Repetition

section Expressions

theorem skipBraces_alike (n depth : Nat) : Alike Eq (skipBraces n depth) (skipBraces n depth) := by
  induction n generalizing depth with
  | zero => exact .pure rfl
  | succ n ih =>
    have hrest (d : Nat) : Alike Eq (do advance; if d = 0 then return () else skipBraces n d)
        (do advance; if d = 0 then return () else skipBraces n d) := by
      refine advance_alike.next fun _ => ?_
      split
      · exact .pure rfl
      · exact ih d
    refine currentKind_alike.next fun kind => ?_
    split
    · exact hrest _
    · exact hrest _
    · exact (fail_alike _).next fun d => hrest d
    · exact hrest _

theorem structTag_alike : Alike Eq structTag structTag := by
  refine (check_alike _).next fun tagged => ?_
  cases tagged with
  | false => exact .pure rfl
  | true => exact lexemeAndAdvance_alike.next fun _ => .pure rfl

theorem structBody_alike : Alike Eq structBody structBody := by
  refine (check_alike _).next fun brace => ?_
  cases brace with
  | false => exact .pure rfl
  | true => exact remaining_alike.next fun n => skipBraces_alike (n + 1) 0

theorem specifier_alike : Alike Eq specifier specifier := by
  refine currentKind_alike.next fun kind => ?_
  split
  · refine lexemeAndAdvance_alike.next fun word => structTag_alike.next fun tag => ?_
    exact structBody_alike.next fun _ => .pure rfl
  · refine atType_alike.next fun type => ?_
    split
    · exact lexemeAndAdvance_alike.next fun word => .pure rfl
    · exact .pure rfl

theorem specifiers_alike : Alike Eq specifiers specifiers :=
  (many_alike_eq specifier_alike).map fun _ _ h => congrArg _ h

theorem typeName_alike : Alike Eq typeName typeName := by
  refine specifiers_alike.next fun words => ?_
  refine (many_alike_eq (p := starText) ?_).next fun stars => .pure rfl
  refine (accept_alike _).next fun star => ?_
  cases star <;> exact .pure rfl

theorem integerLiteral_alike : Alike (Same Expr.erase) integerLiteral integerLiteral := by
  refine current_alike.bind fun t u h => ?_
  rw [h.lexeme]
  split
  · exact fail_alike _
  · exact advance_alike.next fun _ => .pure rfl

theorem floatLiteral_alike : Alike (Same Expr.erase) floatLiteral floatLiteral := by
  refine current_alike.bind fun t u h => ?_
  rw [h.lexeme]
  split
  · exact fail_alike _
  · exact advance_alike.next fun _ => .pure rfl

theorem charLiteral_alike : Alike (Same Expr.erase) charLiteral charLiteral := by
  refine current_alike.bind fun t u h => advance_alike.next fun _ => .pure ?_
  rw [Same, Expr.erase, Expr.erase, h.lexeme]

theorem stringLiteral_alike : Alike (Same Expr.erase) stringLiteral stringLiteral := by
  refine currentSpan_alike.bind fun a b _ => ?_
  refine (many_alike_eq ?_).next fun parts => (spanFrom_alike a b).map fun _ _ _ => rfl
  refine (check_alike _).next fun string => ?_
  cases string with
  | false => exact .pure rfl
  | true => exact lexemeAndAdvance_alike.next fun _ => .pure rfl

theorem identifier_alike : Alike (Same Expr.erase) identifier identifier := by
  refine current_alike.bind fun t u h => peek_alike.bind fun t' u' h' => ?_
  refine advance_alike.next fun _ => ?_
  rw [h.lexeme, h'.kind]
  exact (resolveName_alike _ _).next fun x => .pure rfl

variable {p q r : Parser Expr}

theorem parenthesized_alike (h : Alike (Same Expr.erase) p p) :
    Alike (Same Expr.erase) (parenthesized p) (parenthesized p) := by
  refine currentSpan_alike.bind fun a b _ => advance_alike.next fun _ => ?_
  refine h.bind fun e f hef => (expect_alike _ _).next fun _ => ?_
  refine (spanFrom_alike a b).map fun c d _ => ?_
  rw [Same, Expr.erase_withSpan, Expr.erase_withSpan, hef]

theorem primary_alike (h : Alike (Same Expr.erase) p p) :
    Alike (Same Expr.erase) (primary p) (primary p) := by
  refine currentKind_alike.next fun kind => ?_
  split
  · exact integerLiteral_alike
  · exact floatLiteral_alike
  · exact charLiteral_alike
  · exact stringLiteral_alike
  · exact identifier_alike
  · exact parenthesized_alike h
  · exact fail_alike _

theorem arguments_alike (h : Alike (Same Expr.erase) p p) :
    Alike (Same (List.map Expr.erase)) (arguments p) (arguments p) := by
  refine (check_alike _).next fun none => ?_
  cases none with
  | true => exact .pure rfl
  | false => exact commaSeparated_alike h

theorem memberOf_alike {e f : Expr} (h : Same Expr.erase e f) (arrow : Bool) :
    Alike (Same (Option.map Expr.erase)) (postfixStep.memberOf e arrow)
      (postfixStep.memberOf f arrow) := by
  refine advance_alike.next fun _ => (expectName_alike _).next fun name => ?_
  refine (memberName_alike name).next fun member => ?_
  refine (spanFrom_alike e.span f.span).map fun _ _ _ => ?_
  simp [Same, h]

theorem postfixStep_alike (hp : Alike (Same Expr.erase) p p) (hq : Alike (Same Expr.erase) q q)
    (e f : Expr) (h : Same Expr.erase e f) :
    Alike (Same (Option.map Expr.erase)) (postfixStep p q e) (postfixStep p q f) := by
  refine currentKind_alike.next fun kind => ?_
  split
  · refine advance_alike.next fun _ => hp.bind fun i j hij => (expect_alike _ _).next fun _ => ?_
    refine (spanFrom_alike e.span f.span).map fun _ _ _ => ?_
    simp [Same, h, hij]
  · refine advance_alike.next fun _ => (arguments_alike hq).bind fun as bs hab => ?_
    refine (expect_alike _ _).next fun _ => (spanFrom_alike e.span f.span).map fun _ _ _ => ?_
    simp [Same, h, Expr.eraseAll_eq_map, hab]
  · exact memberOf_alike h false
  · exact memberOf_alike h true
  · refine advance_alike.next fun _ => (spanFrom_alike e.span f.span).map fun _ _ _ => ?_
    simp [Same, h]
  · refine advance_alike.next fun _ => (spanFrom_alike e.span f.span).map fun _ _ _ => ?_
    simp [Same, h]
  · exact .pure rfl

theorem postfixForm_alike (hp : Alike (Same Expr.erase) p p) (hq : Alike (Same Expr.erase) q q) :
    Alike (Same Expr.erase) (postfixForm p q) (postfixForm p q) := by
  refine (primary_alike hp).bind fun e f hef => ?_
  refine (extend_alike (postfixStep_alike hp hq) hef).bind fun e f hef => ?_
  have hchain : e.subscriptChain? = f.subscriptChain? := by
    rw [← e.subscriptChain?_erase, hef, f.subscriptChain?_erase]
  rw [hchain]
  cases f.subscriptChain? with
  | none => exact .pure hef
  | some c => exact (modifyScopes_alike (refine_of_same _ _)).next fun _ => .pure hef

theorem sizeofForm_alike (h : Alike (Same Expr.erase) p p) :
    Alike (Same Expr.erase) (sizeofForm p) (sizeofForm p) := by
  refine currentSpan_alike.bind fun a b _ => advance_alike.next fun _ => ?_
  have hoperand : Alike (Same Expr.erase) (do let e ← p; return .sizeOf e (a.merge e.span))
      (do let e ← p; return .sizeOf e (b.merge e.span)) :=
    h.map fun e f hef => by simp [Same, hef]
  refine (check_alike _).next fun paren => ?_
  cases paren with
  | false => exact hoperand
  | true =>
    refine typeFollows_alike.next fun type => ?_
    cases type with
    | false => exact hoperand
    | true =>
      refine advance_alike.next fun _ => typeName_alike.next fun _ => ?_
      exact (expect_alike _ _).next fun _ => (spanFrom_alike a b).map fun _ _ _ => rfl

theorem castForm_alike (h : Alike (Same Expr.erase) p p) :
    Alike (Same Expr.erase) (castForm p) (castForm p) := by
  refine currentSpan_alike.bind fun a b _ => advance_alike.next fun _ => ?_
  refine typeName_alike.next fun type => (expect_alike _ _).next fun _ => ?_
  exact h.map fun e f hef => by simp [Same, hef]

theorem unaryForm_alike (hp : Alike (Same Expr.erase) p p) (hq : Alike (Same Expr.erase) q q)
    (hr : Alike (Same Expr.erase) r r) :
    Alike (Same Expr.erase) (unaryForm p q r) (unaryForm p q r) := by
  refine current_alike.bind fun t u h => ?_
  rw [h.kind]
  split
  · refine advance_alike.next fun _ => hp.map fun e f hef => ?_
    simp [Same, hef]
  · split
    · exact sizeofForm_alike hp
    · split
      · refine typeFollows_alike.next fun type => ?_
        cases type with
        | true => exact castForm_alike hp
        | false => exact postfixForm_alike hq hr
      · exact postfixForm_alike hq hr

theorem binaryForm_alike (level : Nat) (h : Alike (Same Expr.erase) p p) :
    Alike (Same Expr.erase) (binaryForm level p) (binaryForm level p) := by
  refine h.bind fun e f hef => extend_alike (fun l m hlm => ?_) hef
  refine currentKind_alike.next fun kind => ?_
  split
  · exact .pure rfl
  · refine advance_alike.next fun _ => h.map fun e f hef => ?_
    simp [Same, hlm, hef]

theorem conditionalForm_alike (hp : Alike (Same Expr.erase) p p)
    (hq : Alike (Same Expr.erase) q q) (hr : Alike (Same Expr.erase) r r) :
    Alike (Same Expr.erase) (conditionalForm p q r) (conditionalForm p q r) := by
  refine hp.bind fun c d hcd => (accept_alike _).next fun question => ?_
  cases question with
  | false => exact .pure hcd
  | true =>
    refine hq.bind fun e f hef => (expect_alike _ _).next fun _ => ?_
    exact hr.map fun g h hgh => by simp [Same, hcd, hef, hgh]

theorem assignmentForm_alike (hp : Alike (Same Expr.erase) p p)
    (hq : Alike (Same Expr.erase) q q) :
    Alike (Same Expr.erase) (assignmentForm p q) (assignmentForm p q) := by
  refine hp.bind fun l m hlm => currentKind_alike.next fun kind => ?_
  split
  · exact .pure hlm
  · exact advance_alike.next fun _ => hq.map fun e f hef => by simp [Same, hlm, hef]

theorem sequenceForm_alike (h : Alike (Same Expr.erase) p p) :
    Alike (Same Expr.erase) (sequenceForm p) (sequenceForm p) := by
  refine (commaSeparated_alike h).bind fun es fs hes => ?_
  have hcomma : Alike (Same Expr.erase)
      (do return .comma es (← spanFrom ((es.head?.map Expr.span).getD .none)))
      (do return .comma fs (← spanFrom ((fs.head?.map Expr.span).getD .none))) := by
    refine (spanFrom_alike _ _).map fun _ _ _ => ?_
    simp [Same, Expr.eraseAll_eq_map, hes]
  match es, fs, hes with
  | [], [], _ => exact hcomma
  | [e], [f], hes => exact .pure (List.cons.inj hes).1
  | _ :: _ :: _, _ :: _ :: _, _ => exact hcomma
  | [_], _ :: _ :: _, hes | _ :: _ :: _, [_], hes =>
    exact absurd (congrArg List.length hes) (by simp)

theorem form_alike (n : Nat) (f : Form) : Alike (Same Expr.erase) (form n f) (form n f) := by
  induction n generalizing f with
  | zero => exact fail_alike _
  | succ n ih =>
    cases f with
    | sequence => exact sequenceForm_alike (ih _)
    | assignment => exact assignmentForm_alike (ih _) (ih _)
    | conditional => exact conditionalForm_alike (ih _) (ih _) (ih _)
    | binary level =>
      rw [form]
      split
      · exact binaryForm_alike level (ih _)
      · exact ih _
    | unary => exact unaryForm_alike (ih _) (ih _) (ih _)

theorem formOf_alike (f : Form) : Alike (Same Expr.erase) (formOf f) (formOf f) :=
  remaining_alike.next fun n => form_alike (16 * (n + 1)) f

end Expressions

section Declarations

theorem pointerMark_alike : Alike Eq pointerMark pointerMark := by
  refine (many_alike_eq (p := qualifiedStar) ?_).map fun _ _ h => by rw [h]
  refine (accept_alike _).next fun star => ?_
  cases star with
  | false => exact .pure rfl
  | true =>
    refine (many_alike_eq ?_).next fun _ => .pure rfl
    refine currentKind_alike.next fun kind => ?_
    split
    · exact advance_alike.next fun _ => .pure rfl
    · exact .pure rfl

theorem dimensions_alike :
    Alike (Same (List.map (Option.map Expr.erase))) dimensions dimensions := by
  refine many_alike ?_
  refine (accept_alike _).next fun bracket => ?_
  cases bracket with
  | false => exact .pure rfl
  | true =>
    refine (accept_alike _).next fun empty => ?_
    cases empty with
    | true => exact .pure rfl
    | false =>
      refine (formOf_alike .assignment).bind fun e f hef => (expect_alike _ _).next fun _ => ?_
      exact .pure (by simp [Same, hef])

theorem initializerItems_alike {p : Parser Initializer} (h : Alike (Same Initializer.erase) p p)
    (n : Nat) (more : Bool) : Alike (Same (List.map Initializer.erase))
      (initializerItems p n more) (initializerItems p n more) := by
  induction n generalizing more with
  | zero => exact .pure rfl
  | succ n ih =>
    have hitem : Alike (Same (Option.map fun r => (r.1, r.2.erase))) (initializerItem p more)
        (initializerItem p more) := by
      cases more with
      | false => exact .pure rfl
      | true =>
        refine (check_alike _).next fun brace => ?_
        cases brace with
        | true => exact .pure rfl
        | false =>
          refine h.bind fun i j hij => (accept_alike _).next fun comma => .pure ?_
          simp [Same, hij]
    refine hitem.bind fun a b hab => ?_
    match a, b, hab with
    | none, none, _ => exact .pure rfl
    | some (m, i), some (m', j), hab =>
      obtain ⟨rfl, hij⟩ := Prod.mk.inj (Option.some.inj hab)
      exact (ih m).map fun is js hs => by simp [Same, hij, hs]

theorem initializerWithin_alike (n : Nat) :
    Alike (Same Initializer.erase) (initializerWithin n) (initializerWithin n) := by
  induction n with
  | zero => exact fail_alike _
  | succ n ih =>
    refine (accept_alike _).next fun brace => ?_
    cases brace with
    | true =>
      refine remaining_alike.next fun m => ?_
      refine (initializerItems_alike ih (m + 1) true).bind fun is js hs => ?_
      exact (expect_alike _ _).next fun _ =>
        .pure (by simp [Same, Initializer.eraseAll_eq_map, hs])
    | false => exact (formOf_alike .assignment).map fun e f hef => by simp [Same, hef]

theorem initializer_alike : Alike (Same Initializer.erase) initializer initializer :=
  remaining_alike.next fun n => initializerWithin_alike (n + 1)

theorem optionalInitializer_alike :
    Alike (Same (Option.map Initializer.erase)) optionalInitializer optionalInitializer := by
  refine (accept_alike _).next fun assign => ?_
  cases assign with
  | false => exact .pure rfl
  | true => exact initializer_alike.map fun i j hij => congrArg some hij

theorem declaratorAfter_alike (name : String) (a b : Span) (pointer : Bool) (storage : Storage) :
    Alike (Same Declarator.erase) (declaratorAfter name a pointer storage)
      (declaratorAfter name b pointer storage) := by
  refine dimensions_alike.bind fun ds es hds => ?_
  have hlength : ds.length = es.length := by simpa using congrArg List.length hds
  rw [hlength]
  refine (declareName_alike name _ a b).next fun x => ?_
  refine optionalInitializer_alike.bind fun i j hij => (spanFrom_alike a b).map fun _ _ _ => ?_
  simp [Same, Declarator.erase, hds, hij]

theorem declarator_alike (storage : Storage) :
    Alike (Same Declarator.erase) (declarator storage) (declarator storage) := by
  refine pointerMark_alike.next fun pointer => currentSpan_alike.bind fun a b _ => ?_
  exact (expectName_alike _).next fun name => declaratorAfter_alike name a b pointer storage

theorem declarators_alike (storage : Storage) :
    Alike (Same (List.map Declarator.erase)) (declarators storage) (declarators storage) := by
  refine (check_alike _).next fun empty => ?_
  cases empty with
  | true => exact .pure rfl
  | false => exact commaSeparated_alike (declarator_alike storage)

theorem declaration_alike : Alike (Same (List.map Declarator.erase)) declaration declaration := by
  refine specifiers_alike.next fun words => (declarators_alike _).bind fun ds es hds => ?_
  exact (expect_alike _ _).next fun _ => .pure hds

end Declarations

section Statements

variable {p : Parser Stmt}

theorem withinBlock_alike {q : Parser α} (h : Alike R q q) :
    Alike R (withinBlock q) (withinBlock q) := by
  refine (modifyScopes_alike fun a b hab => ?_).next fun _ => h.bind fun c d hcd => ?_
  · rw [Same, ← a.push_erase, hab, b.push_erase]
  · refine (modifyScopes_alike fun a b hab => ?_).next fun _ => .pure hcd
    rw [Same, ← a.pop_erase, hab, b.pop_erase]

theorem blockItem_alike (h : Alike (Same Stmt.erase) p p) :
    Alike (Same (Option.map Stmt.erase)) (blockItem p) (blockItem p) := by
  refine currentKind_alike.next fun kind => ?_
  split
  · exact .pure rfl
  · exact h.map fun s t hst => congrArg some hst

theorem compound_alike (h : Alike (Same Stmt.erase) p p) (pragmas : List String) :
    Alike (Same Stmt.erase) (compound p pragmas) (compound p pragmas) := by
  refine currentSpan_alike.bind fun a b _ => (expect_alike _ _).next fun _ => ?_
  refine (withinBlock_alike (many_alike (blockItem_alike h))).bind fun ss ts hs => ?_
  refine (expect_alike _ _).next fun _ => (spanFrom_alike a b).map fun _ _ _ => ?_
  simp [Same, Site.erase, Stmt.eraseAll_eq_map, hs]

theorem parenthesizedCondition_alike :
    Alike (Same Expr.erase) parenthesizedCondition parenthesizedCondition :=
  (expect_alike _ _).next fun _ => (formOf_alike .sequence).bind fun _ _ h =>
    (expect_alike _ _).next fun _ => .pure h

theorem expressionUnless_alike (stop : Punct) :
    Alike (Same (Option.map Expr.erase)) (expressionUnless stop) (expressionUnless stop) := by
  refine (check_alike _).next fun stops => ?_
  cases stops with
  | true => exact .pure rfl
  | false => exact (formOf_alike .sequence).map fun e f hef => congrArg some hef

theorem forInit_alike : Alike (Same (Option.map ForInit.erase)) forInit forInit := by
  refine currentSpan_alike.bind fun a b _ => (accept_alike _).next fun empty => ?_
  cases empty with
  | true => exact .pure rfl
  | false =>
    refine atType_alike.next fun type => ?_
    cases type with
    | true =>
      refine declaration_alike.bind fun ds es hds => (spanFrom_alike a b).map fun _ _ _ => ?_
      simp [Same, Declaration.erase, hds]
    | false =>
      refine (formOf_alike .sequence).bind fun e f hef => (expect_alike _ _).next fun _ => ?_
      exact (spanFrom_alike a b).map fun _ _ _ => by simp [Same, hef]

theorem forHeader_alike (id : LoopId) :
    Alike (Same ForHeader.erase) (forHeader id) (forHeader id) := by
  refine forInit_alike.bind fun i j hij => ?_
  refine (expressionUnless_alike _).bind fun c d hcd => (expect_alike _ _).next fun _ => ?_
  refine (expressionUnless_alike _).bind fun e f hef => (expect_alike _ _).next fun _ => ?_
  exact .pure (by simp [Same, ForHeader.erase, hij, hcd, hef])

/-- Statements that still lack their sites. -/
def SameAtSite (f g : Site → Stmt) : Prop :=
  ∀ s t : Site, Same Site.erase s t → Same Stmt.erase (f s) (g t)

theorem forStatement_alike (h : Alike (Same Stmt.erase) p p) :
    Alike SameAtSite (forStatement p) (forStatement p) := by
  have hid : Alike Eq (modifyGet fun s => (s.nextLoop, { s with nextLoop := s.nextLoop + 1 }))
      (modifyGet fun s => (s.nextLoop, { s with nextLoop := s.nextLoop + 1 })) := fun s t hs =>
    .ok hs.nextLoop ⟨hs.tokens, hs.ending, hs.scopes, congrArg (· + 1) hs.nextLoop⟩
  refine hid.next fun id => advance_alike.next fun _ => (expect_alike _ _).next fun _ => ?_
  refine withinBlock_alike ((forHeader_alike id).bind fun k l hkl => h.map fun b c hbc => ?_)
  intro s t hst
  simp [Same, hkl, hbc, hst]

theorem elseBranch_alike (h : Alike (Same Stmt.erase) p p) :
    Alike (Same (Option.map Stmt.erase)) (elseBranch p) (elseBranch p) := by
  refine (accept_alike _).next fun otherwise => ?_
  cases otherwise with
  | false => exact .pure rfl
  | true => exact h.map fun s t hst => congrArg some hst

theorem ifStatement_alike (h : Alike (Same Stmt.erase) p p) :
    Alike SameAtSite (ifStatement p) (ifStatement p) := by
  refine advance_alike.next fun _ => parenthesizedCondition_alike.bind fun c d hcd => ?_
  refine h.bind fun y z hyz => (elseBranch_alike h).bind fun m n hmn => .pure fun s t hst => ?_
  cases m <;> cases n <;> simp_all [Same]

theorem doWhileStatement_alike (h : Alike (Same Stmt.erase) p p) :
    Alike SameAtSite (doWhileStatement p) (doWhileStatement p) := by
  refine advance_alike.next fun _ => h.bind fun b c hbc => (expect_alike _ _).next fun _ => ?_
  refine parenthesizedCondition_alike.bind fun e f hef => (expect_alike _ _).next fun _ => ?_
  exact .pure fun s t hst => by simp [Same, hbc, hef, hst]

theorem returnStatement_alike : Alike SameAtSite returnStatement returnStatement := by
  refine advance_alike.next fun _ => (expressionUnless_alike _).bind fun e f hef => ?_
  exact (expect_alike _ _).next fun _ => .pure fun s t hst => by simp [Same, hef, hst]

theorem gotoStatement_alike : Alike SameAtSite gotoStatement gotoStatement := by
  refine advance_alike.next fun _ => (expectName_alike _).next fun target => ?_
  exact (expect_alike _ _).next fun _ => .pure fun s t hst => by simp [Same, hst]

theorem declarationOrExpression_alike :
    Alike SameAtSite declarationOrExpression declarationOrExpression := by
  refine atType_alike.next fun type => ?_
  cases type with
  | true => exact declaration_alike.map fun ds es hds s t hst => by simp [Same, hds, hst]
  | false =>
    refine (formOf_alike .sequence).bind fun e f hef => (expect_alike _ _).next fun _ => ?_
    exact .pure fun s t hst => by simp [Same, hef, hst]

theorem labelOrOther_alike (h : Alike (Same Stmt.erase) p p) :
    Alike SameAtSite (labelOrOther p) (labelOrOther p) := by
  refine current_alike.bind fun t u htu => peek_alike.bind fun t' u' htu' => ?_
  rw [htu.lexeme, htu'.kind]
  split
  · refine advance_alike.next fun _ => advance_alike.next fun _ => h.map fun b c hbc => ?_
    exact fun s t hst => by simp [Same, hbc, hst]
  · exact declarationOrExpression_alike

theorem simpleStatement_alike (h : Alike (Same Stmt.erase) p p) :
    Alike SameAtSite (simpleStatement p) (simpleStatement p) := by
  refine currentKind_alike.next fun kind => ?_
  split
  · exact advance_alike.next fun _ => .pure fun s t hst => by simp [Same, hst]
  · exact forStatement_alike h
  · exact ifStatement_alike h
  · refine advance_alike.next fun _ => parenthesizedCondition_alike.bind fun c d hcd => ?_
    exact h.map fun b b' hb s t hst => by simp [Same, hcd, hb, hst]
  · exact doWhileStatement_alike h
  · refine advance_alike.next fun _ => parenthesizedCondition_alike.bind fun c d hcd => ?_
    exact h.map fun b b' hb s t hst => by simp [Same, hcd, hb, hst]
  · refine advance_alike.next fun _ => (formOf_alike .conditional).bind fun c d hcd => ?_
    exact (expect_alike _ _).next fun _ => .pure fun s t hst => by simp [Same, hcd, hst]
  · refine advance_alike.next fun _ => (expect_alike _ _).next fun _ => ?_
    exact .pure fun s t hst => by simp [Same, hst]
  · refine advance_alike.next fun _ => (expect_alike _ _).next fun _ => ?_
    exact .pure fun s t hst => by simp [Same, hst]
  · refine advance_alike.next fun _ => (expect_alike _ _).next fun _ => ?_
    exact .pure fun s t hst => by simp [Same, hst]
  · exact returnStatement_alike
  · exact gotoStatement_alike
  · exact labelOrOther_alike h
  · exact declarationOrExpression_alike

theorem pragmaLine_alike : Alike Eq pragmaLine pragmaLine := by
  refine (check_alike _).next fun pragma => ?_
  cases pragma with
  | false => exact .pure rfl
  | true => exact lexemeAndAdvance_alike.next fun _ => .pure rfl

theorem statementOf_alike (h : Alike (Same Stmt.erase) p p) :
    Alike (Same Stmt.erase) (statementOf p) (statementOf p) := by
  refine (many_alike_eq pragmaLine_alike).next fun pragmas => ?_
  refine currentSpan_alike.bind fun a b _ => (check_alike _).next fun brace => ?_
  cases brace with
  | true => exact compound_alike h pragmas
  | false =>
    refine (simpleStatement_alike h).bind fun f g hfg => ?_
    exact (spanFrom_alike a b).map fun _ _ _ => hfg _ _ rfl

theorem statementWithin_alike (n : Nat) :
    Alike (Same Stmt.erase) (statementWithin n) (statementWithin n) := by
  induction n with
  | zero => exact fail_alike _
  | succ n ih => exact statementOf_alike ih

theorem statement_alike : Alike (Same Stmt.erase) statement statement :=
  remaining_alike.next fun n => statementWithin_alike (n + 1)

end Statements

section Programs

theorem parameterAfter_alike (name : String) (a b : Span) (pointer : Bool) :
    Alike (Same Declarator.erase) (parameterAfter name a pointer)
      (parameterAfter name b pointer) := by
  refine dimensions_alike.bind fun ds es hds => ?_
  have hlength : ds.length = es.length := by simpa using congrArg List.length hds
  rw [hlength]
  refine (declareName_alike name _ a b).next fun x => (spanFrom_alike a b).map fun _ _ _ => ?_
  simp [Same, Declarator.erase, hds]

theorem parameter_alike (position : Nat) :
    Alike (Same Declarator.erase) (parameter position) (parameter position) := by
  have hname : Alike Eq (parameterName position) (parameterName position) := by
    refine (check_alike _).next fun named => ?_
    cases named with
    | false => exact .pure rfl
    | true => exact lexemeAndAdvance_alike
  refine atType_alike.next fun type => ?_
  cases type with
  | false => exact fail_alike _
  | true =>
    refine specifiers_alike.next fun _ => pointerMark_alike.next fun pointer => ?_
    refine currentSpan_alike.bind fun a b _ => hname.next fun name => ?_
    exact parameterAfter_alike name a b pointer

theorem parametersFrom_alike (n position : Nat) : Alike (Same (List.map Declarator.erase))
    (parametersFrom n position) (parametersFrom n position) := by
  induction n generalizing position with
  | zero => exact .pure rfl
  | succ n ih =>
    refine (parameter_alike position).bind fun d e hde => (accept_alike _).next fun comma => ?_
    cases comma with
    | false => exact .pure (by simp [Same, hde])
    | true => exact (ih (position + 1)).map fun ds es hds => by simp [Same, hde, hds]

theorem parameters_alike : Alike (Same (List.map Declarator.erase)) parameters parameters := by
  have hfrom : Alike (Same (List.map Declarator.erase))
      (do parametersFrom ((← remaining) + 1) 0) (do parametersFrom ((← remaining) + 1) 0) :=
    remaining_alike.next fun n => parametersFrom_alike (n + 1) 0
  refine (check_alike _).next fun empty => ?_
  cases empty with
  | true => exact .pure rfl
  | false =>
    refine (check_alike _).next fun void => ?_
    cases void with
    | false => exact hfrom
    | true =>
      refine peek_alike.bind fun t u h => ?_
      rw [h.kind]
      split
      · exact advance_alike.next fun _ => .pure rfl
      · exact hfrom

theorem functionSymbol_alike (name : String) (a b : Span) :
    Alike Eq (functionSymbol name a) (functionSymbol name b) := by
  refine scopes_alike.bind fun sc sc' h => ?_
  have hkind (x : Symbol) : sc.table.kind? x = sc'.table.kind? x := by
    have htable : sc.table.erase = sc'.table.erase := congrArg Scopes.table h
    rw [← sc.table.kind?_erase, htable, sc'.table.kind?_erase]
  simp only [lookup?_of_same h, hkind]
  split
  · split
    · exact .pure rfl
    · exact declareName_alike name .function a b
  · exact declareName_alike name .function a b

def Prototype.erase (p : Prototype) : Prototype :=
  { p with params := p.params.map Declarator.erase }

def External.erase : External → External
  | function f => function f.erase
  | prototype p => prototype p.erase
  | global d => global d.erase
  | nothing => nothing

theorem parametersAndBody_alike :
    Alike (Same fun r => (r.1.map Declarator.erase, r.2.map Stmt.erase)) parametersAndBody
      parametersAndBody := by
  refine withinBlock_alike (parameters_alike.bind fun ds es hds => ?_)
  refine (expect_alike _ _).next fun _ => (check_alike _).next fun brace => ?_
  cases brace with
  | false => exact .pure (by simp [Same, hds])
  | true => exact (compound_alike statement_alike []).map fun b c hbc => by simp [Same, hds, hbc]

theorem functionAfter_alike (a b : Span) (name : String) (c d : Span) :
    Alike (Same External.erase) (functionAfter a name c) (functionAfter b name d) := by
  refine (functionSymbol_alike name c d).next fun x => advance_alike.next fun _ => ?_
  refine parametersAndBody_alike.bind fun r r' h => ?_
  match r, r', h with
  | (ps, some s), (ps', some s'), h =>
    obtain ⟨hps, hs⟩ := Prod.mk.inj h
    refine (spanFrom_alike a b).map fun _ _ _ => ?_
    simp [Same, External.erase, Function.erase, hps, Option.some.inj hs]
  | (ps, none), (ps', none), h =>
    refine (expect_alike _ _).next fun _ => .pure ?_
    simp [Same, External.erase, Prototype.erase, (Prod.mk.inj h).1]
  | (_, some _), (_, none), h | (_, none), (_, some _), h => cases (Prod.mk.inj h).2

theorem globalAfter_alike (a b : Span) (name : String) (c d : Span) (pointer : Bool)
    (storage : Storage) : Alike (Same External.erase) (globalAfter a name c pointer storage)
      (globalAfter b name d pointer storage) := by
  refine (declaratorAfter_alike name c d pointer storage).bind fun d e hde => ?_
  refine (many_alike (commaItem_alike (declarator_alike storage))).bind fun ds es hds => ?_
  refine (expect_alike _ _).next fun _ => (spanFrom_alike a b).map fun _ _ _ => ?_
  simp [Same, External.erase, Declaration.erase, hde, hds]

theorem externalAfter_alike (a b : Span) (storage : Storage) :
    Alike (Same External.erase) (externalAfter a storage) (externalAfter b storage) := by
  refine pointerMark_alike.next fun pointer => currentSpan_alike.bind fun c d _ => ?_
  refine (expectName_alike _).next fun name => (check_alike _).next fun paren => ?_
  cases paren with
  | true => exact functionAfter_alike a b name c d
  | false => exact globalAfter_alike a b name c d pointer storage

theorem externalDeclaration_alike :
    Alike (Same External.erase) externalDeclaration externalDeclaration := by
  refine currentSpan_alike.bind fun a b _ => atType_alike.next fun type => ?_
  cases type with
  | false => exact fail_alike _
  | true =>
    refine specifiers_alike.next fun words => (accept_alike _).next fun empty => ?_
    cases empty with
    | true => exact .pure rfl
    | false => exact externalAfter_alike a b (storageOf words)

theorem externals_alike : Alike (Same (List.map External.erase)) externals externals := by
  refine many_alike (currentKind_alike.next fun kind => ?_)
  split
  · exact .pure rfl
  · exact advance_alike.next fun _ => .pure rfl
  · exact externalDeclaration_alike.map fun e f hef => congrArg some hef

end Programs

end Grammar

namespace Program

theorem erase_ofExternals (es : List Grammar.External) (t : SymbolTable) :
    (ofExternals es t).erase = ofExternals (es.map Grammar.External.erase) t.erase := by
  simp only [erase, ofExternals, List.map_filterMap, List.filterMap_map]
  congr 2 <;> funext e <;> cases e <;> rfl

/-- Texts with the same tokens are the same program up to places, or are refused alike. -/
theorem parse_erase {source source' : String}
    (h : (Token.scan source).erase = (Token.scan source').erase) :
    mapResult SourceError.erase erase (parse source) =
      mapResult SourceError.erase erase (parse source') := by
  have hstart : (Grammar.State.start (Token.scan source)).Alike
      (.start (Token.scan source')) :=
    ⟨congrArg Token.Scan.tokens h, congrArg Token.Scan.ending h, rfl, rfl⟩
  have hrun := Grammar.externals_alike hstart
  rw [parse, parse]
  generalize Grammar.externals (.start (Token.scan source)) = x at hrun ⊢
  generalize Grammar.externals (.start (Token.scan source')) = y at hrun ⊢
  cases hrun with
  | error he => exact congrArg Except.error he
  | ok hes hs =>
    refine congrArg Except.ok ?_
    rw [erase_ofExternals, erase_ofExternals, hes]
    exact congrArg (ofExternals _ ·.table) hs.scopes

end Program

end LoopLegality

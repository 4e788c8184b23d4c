import LoopLegality.Proofs.Inversion

namespace LoopLegality.Grammar

section Frames

/-- What reading on never breaks. -/
class Frame (I : State → State → Prop) : Prop where
  refl (s : State) : I s s
  trans {s s' s'' : State} : I s s' → I s' s'' → I s s''
  advance {s s' : State} {u : Unit} : advance s = .ok (u, s') → I s s'

/-- A parser that, on success, is related to its start. -/
def Keeps {α : Type} (I : State → State → Prop) (p : Parser α) : Prop :=
  ∀ ⦃s a s'⦄, p s = .ok (a, s') → I s s'

variable {α β : Type} {I : State → State → Prop}

theorem Keeps.ite {c : Prop} [Decidable c] {p q : Parser α} (hp : Keeps I p) (hq : Keeps I q) :
    Keeps I (if c then p else q) := by
  split
  · exact hp
  · exact hq

theorem keeps_fail (cause : ParseError.Cause) : Keeps I (fail cause : Parser α) :=
  fun _ _ _ h => absurd h fail_inv

variable [Frame I]

theorem Keeps.pure (a : α) : Keeps I (pure a : Parser α) := by
  rintro s _ _ ⟨⟩
  exact Frame.refl s

theorem Keeps.bind {p : Parser α} {f : α → Parser β} (hp : Keeps I p) (hf : ∀ a, Keeps I (f a)) :
    Keeps I (p >>= f) := by
  intro s b s' h
  obtain ⟨a, s₁, ha, h⟩ := bind_inv h
  exact Frame.trans (hp ha) (hf a h)

theorem Keeps.map {p : Parser α} (hp : Keeps I p) (f : α → β) :
    Keeps I (do return f (← p)) :=
  hp.bind fun a => .pure (f a)

theorem Keeps.still {p : Parser α} (h : ∀ s a s', p s = .ok (a, s') → s' = s) : Keeps I p := by
  intro s a s' hp
  rw [h s a s' hp]
  exact Frame.refl s

theorem keeps_current : Keeps I current := by
  refine .still fun s t s' h => ?_
  rw [current] at h
  cases hhead : headToken s.tokens s.ending with
  | error e => simp [hhead, Bind.bind, Except.bind] at h
  | ok u =>
    rw [hhead] at h
    cases h
    rfl

theorem keeps_peek : Keeps I peek := by
  refine .still fun s t s' h => ?_
  rw [peek] at h
  cases hhead : headToken s.tokens.tail s.ending with
  | error e => simp [hhead, Bind.bind, Except.bind] at h
  | ok u =>
    rw [hhead] at h
    cases h
    rfl

theorem keeps_advance : Keeps I advance := fun _ _ _ h => Frame.advance h

theorem keeps_remaining : Keeps I remaining := .still fun _ _ _ h => by cases h; rfl

theorem keeps_scopes : Keeps I scopes := .still fun _ _ _ h => by cases h; rfl

theorem keeps_spanFrom (a : Span) : Keeps I (spanFrom a) := .still fun _ _ _ h => by cases h; rfl

theorem keeps_currentKind : Keeps I currentKind := keeps_current.map _

theorem keeps_currentSpan : Keeps I currentSpan := keeps_current.map _

theorem keeps_check (k : Token.Kind) : Keeps I (check k) := keeps_currentKind.map _

theorem keeps_accept (k : Token.Kind) : Keeps I (accept k) :=
  (keeps_check k).bind fun _ => .ite (keeps_advance.bind fun _ => .pure _) (.pure _)

theorem keeps_expect (k : Token.Kind) (place : String) : Keeps I (expect k place) :=
  (keeps_check k).bind fun _ => .ite keeps_advance (keeps_fail _)

theorem keeps_expectName (what : String) : Keeps I (expectName what) :=
  keeps_current.bind fun _ => .ite (keeps_advance.bind fun _ => .pure _) (keeps_fail _)

theorem keeps_lexemeAndAdvance : Keeps I lexemeAndAdvance :=
  keeps_current.bind fun _ => keeps_advance.bind fun _ => .pure _

theorem keeps_atType : Keeps I atType :=
  keeps_scopes.bind fun _ => keeps_current.bind fun _ => .pure _

theorem keeps_typeFollows : Keeps I typeFollows :=
  keeps_peek.bind fun _ => keeps_scopes.bind fun _ => .pure _

theorem Keeps.repeatStep {step : Parser (Option α)} (h : Keeps I step) (n : Nat) :
    Keeps I (repeatStep step n) := by
  induction n with
  | zero => exact .pure _
  | succ n ih =>
    refine h.bind fun r => ?_
    cases r with
    | none => exact .pure _
    | some a => exact ih.bind fun _ => .pure _

theorem Keeps.many {step : Parser (Option α)} (h : Keeps I step) : Keeps I (many step) :=
  keeps_remaining.bind fun _ => h.repeatStep _

theorem Keeps.extendStep {step : α → Parser (Option α)} (h : ∀ a, Keeps I (step a)) (n : Nat)
    (a : α) : Keeps I (extendStep step n a) := by
  induction n generalizing a with
  | zero => exact .pure _
  | succ n ih =>
    refine (h a).bind fun r => ?_
    cases r with
    | none => exact .pure _
    | some b => exact ih b

theorem Keeps.extend {step : α → Parser (Option α)} (h : ∀ a, Keeps I (step a)) (a : α) :
    Keeps I (extend step a) :=
  keeps_remaining.bind fun _ => .extendStep h _ a

theorem Keeps.commaItem {item : Parser α} (h : Keeps I item) : Keeps I (commaItem item) :=
  (keeps_accept _).bind fun _ => .ite (h.bind fun _ => .pure _) (.pure _)

theorem Keeps.commaSeparated {item : Parser α} (h : Keeps I item) :
    Keeps I (commaSeparated item) :=
  h.bind fun _ => h.commaItem.many.bind fun _ => .pure _

theorem keeps_skipBraces (n depth : Nat) : Keeps I (skipBraces n depth) := by
  induction n generalizing depth with
  | zero => exact .pure _
  | succ n ih =>
    have hrest (d : Nat) : Keeps I (do advance; if d = 0 then return () else skipBraces n d) :=
      keeps_advance.bind fun _ => .ite (.pure _) (ih d)
    refine keeps_currentKind.bind fun k => ?_
    split
    · exact hrest _
    · exact hrest _
    · exact (keeps_fail _).bind hrest
    · exact hrest _

theorem keeps_structTag : Keeps I structTag :=
  (keeps_check _).bind fun _ => .ite (keeps_lexemeAndAdvance.map _) (.pure _)

theorem keeps_structBody : Keeps I structBody :=
  (keeps_check _).bind fun _ =>
    .ite (keeps_remaining.bind fun _ => keeps_skipBraces _ _) (.pure _)

theorem keeps_specifier : Keeps I specifier :=
  keeps_currentKind.bind fun _ => .ite
    (keeps_lexemeAndAdvance.bind fun _ => keeps_structTag.bind fun _ =>
      keeps_structBody.bind fun _ => .pure _)
    (keeps_atType.bind fun _ => .ite (keeps_lexemeAndAdvance.map _) (.pure _))

theorem keeps_specifiers : Keeps I specifiers := keeps_specifier.many.map _

theorem keeps_typeName : Keeps I typeName :=
  keeps_specifiers.bind fun _ =>
    ((keeps_accept _).bind fun _ => .ite (.pure _) (.pure _)).many.bind fun _ => .pure _

theorem keeps_pointerMark : Keeps I pointerMark := by
  have hqualifier : Keeps I qualifier :=
    keeps_currentKind.bind fun _ => .ite (keeps_advance.bind fun _ => .pure _) (.pure _)
  have hstar : Keeps I qualifiedStar :=
    (keeps_accept _).bind fun _ => .ite (hqualifier.many.bind fun _ => .pure _) (.pure _)
  exact hstar.many.map _

theorem keeps_pragmaLine : Keeps I pragmaLine :=
  (keeps_check _).bind fun _ => .ite (keeps_lexemeAndAdvance.map _) (.pure _)

end Frames

section Expressions

variable {I : State → State → Prop} [Frame I] (hscopes : ∀ s sc, I s { s with scopes := sc })
  {operand nested argument : Parser Expr}

include hscopes

omit [Frame I] in
theorem keeps_modifyScopes (f : Scopes → Scopes) : Keeps I (modifyScopes f) := by
  rintro s _ _ ⟨⟩
  exact hscopes s _

omit [Frame I] in
theorem keeps_bindName (f : Scopes → Symbol × Scopes) : Keeps I (bindName f) := by
  rintro s _ _ ⟨⟩
  exact hscopes s _

theorem keeps_primary (hnested : Keeps I nested) : Keeps I (primary nested) := by
  have hstring : Keeps I stringPart :=
    (keeps_check _).bind fun _ => .ite (keeps_lexemeAndAdvance.map _) (.pure _)
  refine keeps_currentKind.bind fun k => ?_
  split
  · refine keeps_current.bind fun t => ?_
    split
    · exact keeps_fail _
    · exact keeps_advance.bind fun _ => .pure _
  · refine keeps_current.bind fun t => ?_
    split
    · exact keeps_fail _
    · exact keeps_advance.bind fun _ => .pure _
  · exact keeps_current.bind fun _ => keeps_advance.bind fun _ => .pure _
  · exact keeps_currentSpan.bind fun _ => hstring.many.bind fun _ => (keeps_spanFrom _).map _
  · exact keeps_current.bind fun _ => keeps_peek.bind fun _ => keeps_advance.bind fun _ =>
      (keeps_bindName hscopes _).map _
  · exact keeps_currentSpan.bind fun _ => keeps_advance.bind fun _ => hnested.bind fun _ =>
      (keeps_expect _ _).bind fun _ => (keeps_spanFrom _).map _
  · exact keeps_fail _

theorem keeps_postfixStep (hnested : Keeps I nested) (hargument : Keeps I argument) (e : Expr) :
    Keeps I (postfixStep nested argument e) := by
  have hmember (arrow : Bool) : Keeps I (postfixStep.memberOf e arrow) :=
    keeps_advance.bind fun _ => (keeps_expectName _).bind fun _ =>
      (keeps_bindName hscopes _).bind fun _ => (keeps_spanFrom _).map _
  have harguments : Keeps I (arguments argument) :=
    (keeps_check _).bind fun _ => .ite (.pure _) hargument.commaSeparated
  refine keeps_currentKind.bind fun k => ?_
  split
  · exact keeps_advance.bind fun _ => hnested.bind fun _ => (keeps_expect _ _).bind fun _ =>
      (keeps_spanFrom _).map _
  · exact keeps_advance.bind fun _ => harguments.bind fun _ => (keeps_expect _ _).bind fun _ =>
      (keeps_spanFrom _).map _
  · exact hmember false
  · exact hmember true
  · exact keeps_advance.bind fun _ => (keeps_spanFrom _).map _
  · exact keeps_advance.bind fun _ => (keeps_spanFrom _).map _
  · exact .pure _

theorem keeps_postfixForm (hnested : Keeps I nested) (hargument : Keeps I argument) :
    Keeps I (postfixForm nested argument) := by
  refine (keeps_primary hscopes hnested).bind fun a =>
    (Keeps.extend (keeps_postfixStep hscopes hnested hargument) a).bind fun e => ?_
  split
  · exact (keeps_modifyScopes hscopes _).bind fun _ => .pure _
  · exact .pure _

theorem keeps_unaryForm (hoperand : Keeps I operand) (hnested : Keeps I nested)
    (hargument : Keeps I argument) : Keeps I (unaryForm operand nested argument) := by
  have hpostfix := keeps_postfixForm hscopes hnested hargument
  have hcast : Keeps I (castForm operand) :=
    keeps_currentSpan.bind fun _ => keeps_advance.bind fun _ => keeps_typeName.bind fun _ =>
      (keeps_expect _ _).bind fun _ => hoperand.map _
  have hsizeof : Keeps I (sizeofForm operand) :=
    keeps_currentSpan.bind fun _ => keeps_advance.bind fun _ => (keeps_check _).bind fun _ =>
      .ite
        (keeps_typeFollows.bind fun _ => .ite
          (keeps_advance.bind fun _ => keeps_typeName.bind fun _ => (keeps_expect _ _).bind fun _ =>
            (keeps_spanFrom _).map _)
          (hoperand.map _))
        (hoperand.map _)
  refine keeps_current.bind fun t => ?_
  split
  · exact keeps_advance.bind fun _ => hoperand.map _
  · exact .ite hsizeof (.ite (keeps_typeFollows.bind fun _ => .ite hcast hpostfix) hpostfix)

theorem keeps_form (n : Nat) (f : Form) : Keeps I (form n f) := by
  induction n generalizing f with
  | zero => exact keeps_fail _
  | succ n ih =>
    cases f with
    | sequence =>
      refine (ih .assignment).commaSeparated.bind fun es => ?_
      split
      · exact .pure _
      · exact (keeps_spanFrom _).map _
    | assignment =>
      refine (ih .conditional).bind fun lhs => keeps_currentKind.bind fun k => ?_
      split
      · exact .pure _
      · exact keeps_advance.bind fun _ => (ih .assignment).map _
    | conditional =>
      exact (ih (.binary 0)).bind fun _ => (keeps_accept _).bind fun _ => .ite
        ((ih .sequence).bind fun _ => (keeps_expect _ _).bind fun _ => (ih .conditional).map _)
        (.pure _)
    | binary level =>
      rw [form]
      refine .ite ((ih (.binary (level + 1))).bind fun a => .extend (fun lhs => ?_) a) (ih .unary)
      refine keeps_currentKind.bind fun k => ?_
      split
      · exact .pure _
      · exact keeps_advance.bind fun _ => (ih (.binary (level + 1))).map _
    | unary => exact keeps_unaryForm hscopes (ih .unary) (ih .sequence) (ih .assignment)

/-- An expression is read by reading on and by binding names. -/
theorem keeps_formOf (f : Form) : Keeps I (formOf f) :=
  keeps_remaining.bind fun _ => keeps_form hscopes _ f

end Expressions

section Instances

/-- Nothing happens but that tokens are read. -/
structure Skips (s s' : State) : Prop where
  tokens : s'.tokens <:+ s.tokens
  ending : s'.ending = s.ending
  scopes : s'.scopes = s.scopes
  nextLoop : s'.nextLoop = s.nextLoop

structure Onward (s s' : State) : Prop where
  tokens : s'.tokens <:+ s.tokens
  ending : s'.ending = s.ending
  nextLoop : s'.nextLoop = s.nextLoop

theorem skips_advance {s s' : State} {u : Unit} (h : advance s = .ok (u, s')) : Skips s s' := by
  rw [advance] at h
  cases ht : headToken s.tokens s.ending with
  | error e => simp [ht, bind, Except.bind] at h
  | ok t =>
    cases hnext : headToken s.tokens.tail s.ending with
    | error e => simp [ht, hnext, bind, Except.bind] at h
    | ok v =>
      rw [ht, hnext] at h
      cases h
      exact ⟨List.tail_suffix _, rfl, rfl, rfl⟩

theorem Skips.trans {s s' s'' : State} (h : Skips s s') (h' : Skips s' s'') : Skips s s'' :=
  ⟨h'.tokens.trans h.tokens, h'.ending.trans h.ending, h'.scopes.trans h.scopes,
    h'.nextLoop.trans h.nextLoop⟩

theorem Skips.refl (s : State) : Skips s s := ⟨List.suffix_rfl, rfl, rfl, rfl⟩

instance : Frame Skips := ⟨.refl, .trans, skips_advance⟩

instance : Frame Onward where
  refl _ := ⟨List.suffix_rfl, rfl, rfl⟩
  trans h h' := ⟨h'.tokens.trans h.tokens, h'.ending.trans h.ending, h'.nextLoop.trans h.nextLoop⟩
  advance h := ⟨(skips_advance h).tokens, (skips_advance h).ending, (skips_advance h).nextLoop⟩

theorem formOf_onward (f : Form) : Keeps Onward (formOf f) :=
  keeps_formOf (fun _ _ => ⟨List.suffix_rfl, rfl, rfl⟩) f

end Instances

end LoopLegality.Grammar

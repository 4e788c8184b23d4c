import LoopLegality.Proofs.Lockstep

namespace LoopLegality.Grammar

variable {all : List Token} {k : Token.Kind} {n : Nat}

theorem ahead_scopes (s : State) (sc : Scopes) : Ahead False s { s with scopes := sc } :=
  ⟨List.suffix_rfl, rfl, False.elim⟩

theorem bindName_keeps (f : Scopes → Symbol × Scopes) : Keeps (Ahead False) (bindName f) :=
  keeps_bindName ahead_scopes f

theorem modifyScopes_keeps (f : Scopes → Scopes) : Keeps (Ahead False) (modifyScopes f) :=
  keeps_modifyScopes ahead_scopes f

section Expressions

variable {operand operand' nested nested' argument argument' : Parser Expr}

theorem lexemeAndAdvance_paced (hk : k ≠ .eof) :
    Lockstep all k (n + 1) (fun _ => True) lexemeAndAdvance lexemeAndAdvance :=
  .still (fun _ _ _ => current_still) fun _ => .advance hk (.pure not_false)

theorem stringPart_consumes : Consumes all (·.isSome = true) stringPart :=
  .of_lockstep (.check ((lexemeAndAdvance_paced (k := .string) nofun).map _) (.pure nofun))

theorem starText_consumes : Consumes all (·.isSome = true) starText :=
  .of_lockstep (.accept nofun (.pure not_false) (.pure nofun))

theorem integerLiteral_paced (hk : k ≠ .eof) :
    Lockstep all k (n + 1) (fun _ => True) integerLiteral integerLiteral := by
  refine .still (fun _ _ _ => current_still) fun t => ?_
  split
  · exact .fail _
  · exact .advance hk (.pure not_false)

theorem floatLiteral_paced (hk : k ≠ .eof) :
    Lockstep all k (n + 1) (fun _ => True) floatLiteral floatLiteral := by
  refine .still (fun _ _ _ => current_still) fun t => ?_
  split
  · exact .fail _
  · exact .advance hk (.pure not_false)

theorem charLiteral_paced (hk : k ≠ .eof) :
    Lockstep all k (n + 1) (fun _ => True) charLiteral charLiteral :=
  .still (fun _ _ _ => current_still) fun _ => .advance hk (.pure not_false)

theorem stringLiteral_paced :
    Lockstep all .string (n + 1) (fun _ => True) stringLiteral stringLiteral := by
  have hpart : Lockstep all .string (n + 1) (fun _ => True) stringPart stringPart :=
    .checkSeen nofun ((lexemeAndAdvance_paced (k := .string) nofun).map _)
  have hparts :
      Lockstep all .string (n + 1) (fun _ => True) (many stringPart) (many stringPart) := by
    refine .still (fun _ _ _ h => by cases h; rfl) fun m => hpart.past fun r => ?_
    cases r with
    | none => exact .pure not_false
    | some a => exact (stringPart_consumes.lockstep.repeatStep m).bind fun _ => .pure not_false
  exact .currentSpan fun _ => hparts.past fun _ => ((keeps_spanFrom _).map _).lockstep

theorem identifier_paced (hk : k ≠ .eof) :
    Lockstep all k (n + 1) (fun _ => True) identifier identifier :=
  .still (fun _ _ _ => current_still) fun _ => .still (fun _ _ _ => peek_still) fun _ =>
    .advance hk ((bindName_keeps _).map _).lockstep

theorem parenthesized_paced (hk : k ≠ .eof) (hnested : Paced all n nested nested') :
    Lockstep all k (n + 1) (fun _ => True) (parenthesized nested) (parenthesized nested') :=
  .currentSpan fun _ => .advance hk (hnested.bind fun _ =>
    ((keeps_expect _ _).bind fun _ => (keeps_spanFrom _).map _).lockstep)

theorem primary_paced (hnested : Paced all n nested nested') :
    Paced all (n + 1) (primary nested) (primary nested') := by
  refine .currentKind fun k => ?_
  split
  · exact integerLiteral_paced nofun
  · exact floatLiteral_paced nofun
  · exact charLiteral_paced nofun
  · exact stringLiteral_paced
  · exact identifier_paced nofun
  · exact parenthesized_paced nofun hnested
  · exact .fail _

theorem arguments_lockstep (hargument : Paced all n argument argument') :
    Lockstep all .eof n (fun _ => False) (arguments argument) (arguments argument') :=
  (keeps_check _).consumes.bind fun _ => .ite (.pure not_false) hargument.commaSeparated.any

theorem postfixStep_paced (hnested : Paced all n nested nested')
    (hargument : Paced all n argument argument') (e : Expr) :
    Lockstep all .eof (n + 1) (·.isSome = true) (postfixStep nested argument e)
      (postfixStep nested' argument' e) := by
  have hmember (p : Punct) (arrow : Bool) : Lockstep all (.punct p) (n + 1) (·.isSome = true)
      (postfixStep.memberOf e arrow) (postfixStep.memberOf e arrow) :=
    .advance nofun ((keeps_expectName _).bind fun _ => (bindName_keeps _).bind fun _ =>
      (keeps_spanFrom _).map _).lockstep
  refine .currentKind fun k => ?_
  split
  · exact .advance nofun (hnested.bind fun _ =>
      ((keeps_expect _ _).bind fun _ => (keeps_spanFrom _).map _).lockstep)
  · exact .advance nofun ((arguments_lockstep hargument).bind fun _ =>
      ((keeps_expect _ _).bind fun _ => (keeps_spanFrom _).map _).lockstep)
  · exact hmember .dot false
  · exact hmember .arrow true
  · exact .advance nofun ((keeps_spanFrom _).map _).lockstep
  · exact .advance nofun ((keeps_spanFrom _).map _).lockstep
  · exact .pure nofun

theorem postfixForm_paced (hnested : Paced all n nested nested')
    (hargument : Paced all n argument argument') :
    Paced all (n + 1) (postfixForm nested argument) (postfixForm nested' argument') := by
  have hstep (e : Expr) := (postfixStep_paced hnested hargument e).mono n.le_succ
  refine (primary_paced hnested).past fun a => (Lockstep.extend hstep a).bind fun e => ?_
  split
  · exact ((modifyScopes_keeps _).bind fun _ => .pure _).lockstep
  · exact .pure not_false

theorem sizeofForm_paced (hk : k ≠ .eof) (hoperand : Paced all n operand operand') :
    Lockstep all k (n + 1) (fun _ => True) (sizeofForm operand) (sizeofForm operand') := by
  have htype (start : Span) : Keeps (Ahead False) (do
      advance
      let _ ← typeName
      expectPunct .rightParen "after type name"
      return Expr.sizeOfType (← spanFrom start)) :=
    keeps_advance.bind fun _ => keeps_typeName.bind fun _ => (keeps_expect _ _).bind fun _ =>
      (keeps_spanFrom _).map _
  exact .currentSpan fun _ => .advance hk ((keeps_check _).consumes.bind fun _ => .ite
    (keeps_typeFollows.consumes.bind fun _ => .ite (htype _).lockstep (hoperand.map _))
    (hoperand.map _))

theorem castForm_paced (hk : k ≠ .eof) (hoperand : Paced all n operand operand') :
    Lockstep all k (n + 1) (fun _ => True) (castForm operand) (castForm operand') :=
  .currentSpan fun _ => .advance hk (keeps_typeName.consumes.bind fun _ =>
    (keeps_expect _ _).consumes.bind fun _ => hoperand.map _)

theorem unaryForm_paced (hoperand : Paced all n operand operand')
    (hnested : Paced all n nested nested') (hargument : Paced all n argument argument') :
    Paced all (n + 1) (unaryForm operand nested argument)
      (unaryForm operand' nested' argument') := by
  have hother (k : Token.Kind) := (postfixForm_paced hnested hargument).anywhere (k := k)
  refine .current fun t => ?_
  split
  · next op hop =>
    have hk : t.kind ≠ .eof := fun hk => by simp [hk, prefixOp?] at hop
    exact .advance hk (hoperand.map _)
  · split
    · next hk => exact sizeofForm_paced (by simp [hk]) hoperand
    · split
      · next hk =>
        exact .still (fun _ _ _ => typeFollows_still) fun _ =>
          .ite (castForm_paced (by simp [hk]) hoperand) (hother _)
      · exact hother _

theorem binaryStep_paced (hoperand : Paced all n operand operand') (level : Nat) (lhs : Expr) :
    Lockstep all .eof (n + 1) (·.isSome = true) (binaryForm.step operand level lhs)
      (binaryForm.step operand' level lhs) := by
  refine .currentKind fun k => ?_
  split
  · exact .pure nofun
  · next op hop =>
    have hk : k ≠ .eof := fun hk => by simp [hk, binaryOp?] at hop
    exact .advance hk (hoperand.map _)

theorem binaryForm_paced (hoperand : Paced all (n + 1) operand operand') (level : Nat) :
    Paced all (n + 1) (binaryForm level operand) (binaryForm level operand') :=
  hoperand.past fun a => .extend (fun lhs =>
    (binaryStep_paced (hoperand.mono n.le_succ) level lhs).mono n.le_succ) a

theorem conditionalForm_paced {test test' otherwise otherwise' : Parser Expr}
    (htest : Paced all (n + 1) test test') (hnested : Paced all n nested nested')
    (hotherwise : Paced all n otherwise otherwise') :
    Paced all (n + 1) (conditionalForm test nested otherwise)
      (conditionalForm test' nested' otherwise') :=
  htest.past fun _ => (keeps_accept _).consumes.bind fun _ => .ite
    (hnested.bind fun _ => (keeps_expect _ _).consumes.bind fun _ => hotherwise.map _)
    (.pure not_false)

theorem assignmentForm_paced {target target' value value' : Parser Expr}
    (htarget : Paced all (n + 1) target target') (hvalue : Paced all n value value') :
    Paced all (n + 1) (assignmentForm target value) (assignmentForm target' value') := by
  refine htarget.past fun lhs => keeps_currentKind.consumes.bind fun k => ?_
  split
  · exact .pure not_false
  · exact keeps_advance.consumes.bind fun _ => hvalue.map _

theorem sequenceForm_paced {item item' : Parser Expr} (hitem : Paced all (n + 1) item item') :
    Paced all (n + 1) (sequenceForm item) (sequenceForm item') := by
  refine hitem.commaSeparated.past fun es => ?_
  split
  · exact .pure not_false
  · exact ((keeps_spanFrom _).map _).lockstep

theorem form_consumes (n : Nat) (f : Form) : Consumes all (fun _ => True) (form n f) := by
  induction n generalizing f with
  | zero => exact fun _ _ _ _ h => absurd h fail_inv
  | succ n ih =>
    have hform (f : Form) (m : Nat) : Paced all m (form n f) (form n f) := (ih f).lockstep
    apply Consumes.of_lockstep
    cases f with
    | sequence => exact sequenceForm_paced (hform _ _)
    | assignment => exact assignmentForm_paced (hform _ _) (hform _ _)
    | conditional => exact conditionalForm_paced (hform _ _) (hform _ _) (hform _ _)
    | binary level =>
      rw [form]
      exact .ite (binaryForm_paced (hform _ _) level) (hform _ _)
    | unary => exact unaryForm_paced (hform _ _) (hform _ _) (hform _ _)

theorem formOf_consumes (f : Form) : Consumes all (fun _ => True) (formOf f) :=
  .of_lockstep (keeps_remaining.consumes.bind fun _ => (form_consumes _ f).lockstep)

end Expressions

section Declarations

theorem specifier_consumes : Consumes all (·.isSome = true) specifier := by
  intro s r s' w h
  obtain ⟨t, _, ht, rfl, h⟩ := currentKind_bind h
  split at h
  · next hk =>
    obtain ⟨s₁, hword, h⟩ := lexemeAndAdvance_bind h w ht (by rcases hk with hk | hk <;> simp [hk])
    obtain ⟨tag, s₂, htag, h⟩ := bind_inv h
    obtain ⟨_, s₃, hbody, h⟩ := bind_inv h
    cases h
    have hrest : Ahead False s₁ s' := Frame.trans (keeps_structTag htag) (keeps_structBody hbody)
    exact (hword.ahead.trans hrest).mono fun _ => .inl (List.cons_ne_nil _ _)
  · obtain ⟨u, hu, hk, h⟩ | h := atType_bind h
    · obtain ⟨s₁, hword, h⟩ := lexemeAndAdvance_bind h w hu hk
      cases h
      exact hword.ahead.mono fun _ => List.cons_ne_nil _ _
    · cases h
      exact .refl nofun s

theorem qualifier_consumes : Consumes all (·.isSome = true) qualifier := by
  refine .of_lockstep (.currentKind fun k => ?_)
  split
  · next hk => exact .advance (by rintro rfl; simp at hk) (.pure not_false)
  · exact .pure nofun

theorem qualifiedStar_consumes : Consumes all (·.isSome = true) qualifiedStar :=
  .of_lockstep (.accept nofun
    (qualifier_consumes.lockstep.many.bind fun _ => .pure not_false) (.pure nofun))

theorem dimension_consumes : Consumes all (·.isSome = true) dimension := by
  refine .of_lockstep (.accept nofun ?_ (.pure nofun))
  exact (keeps_accept _).consumes.bind fun _ => .ite (.pure not_false)
    ((formOf_consumes _).bind fun _ => ((keeps_expect _ _).map _).lockstep)

variable {nested nested' : Parser Initializer}

theorem initializerItem_paced (hnested : Paced all n nested nested') (more : Bool) :
    Lockstep all .eof n (·.isSome = true) (initializerItem nested more)
      (initializerItem nested' more) := by
  cases more with
  | false => exact .pure nofun
  | true =>
    exact (keeps_check _).consumes.bind fun _ => .ite (.pure nofun)
      (hnested.past fun _ => ((keeps_accept _).map _).lockstep)

theorem initializerItems_lockstep (hnested : Paced all n nested nested') (m : Nat) (more : Bool) :
    Lockstep all .eof n (fun _ => False) (initializerItems nested m more)
      (initializerItems nested' m more) := by
  induction m generalizing more with
  | zero => exact .pure not_false
  | succ m ih =>
    refine (initializerItem_paced hnested more).bind fun r => ?_
    cases r with
    | none => exact .pure not_false
    | some p => exact (ih p.1).bind fun _ => .pure not_false

def initializerOf (nested : Parser Initializer) : Parser Initializer := do
  if ← accept (.punct .leftBrace) then
    let items ← initializerItems nested ((← remaining) + 1) true
    expectPunct .rightBrace "after initializer list"
    return .list items
  else
    return .expr (← assignment)

theorem initializerOf_paced (hnested : Paced all n nested nested') :
    Paced all (n + 1) (initializerOf nested) (initializerOf nested') := by
  have hlist := initializerItems_lockstep hnested
  refine .accept nofun ?_ ((formOf_consumes _).lockstep.map _)
  exact keeps_remaining.consumes.bind fun _ => (hlist _ true).bind fun _ =>
    ((keeps_expect _ _).map _).lockstep

theorem initializerWithin_consumes (n : Nat) :
    Consumes all (fun _ => True) (initializerWithin n) := by
  induction n with
  | zero => exact fun _ _ _ _ h => absurd h fail_inv
  | succ n ih => exact .of_lockstep (initializerOf_paced ih.lockstep)

theorem initializer_consumes : Consumes all (fun _ => True) initializer :=
  .of_lockstep (keeps_remaining.consumes.bind fun _ => (initializerWithin_consumes _).lockstep)

theorem declaration_consumes : Consumes all (fun _ => True) declaration :=
  .of_lockstep (keeps_specifiers.consumes.bind fun _ => (declarators_walks _).consumes.bind fun _ =>
    (expectPunct_consumes _ _).lockstep.map _)

end Declarations

section Statements

variable {α : Type} {c : α → Prop} {p q : Parser α} {nested nested' : Parser Stmt}

theorem Lockstep.withinBlock (h : Lockstep all .eof n c p q) :
    Lockstep all k n (fun _ => False) (withinBlock p) (withinBlock q) :=
  (modifyScopes_keeps _).consumes.bind fun _ => h.bind fun _ =>
    ((modifyScopes_keeps _).map _).lockstep

theorem pragmaLine_consumes : Consumes all (·.isSome = true) pragmaLine :=
  .of_lockstep (.check ((lexemeAndAdvance_paced (k := .pragma) nofun).map _) (.pure nofun))

theorem declarationOrExpression_consumes :
    Consumes all (fun _ => True) declarationOrExpression :=
  .of_lockstep (keeps_atType.consumes.bind fun _ => .ite (declaration_consumes.lockstep.map _)
    ((formOf_consumes _).past fun _ => ((keeps_expect _ _).map _).lockstep))

theorem returnStatement_paced (hk : k ≠ .eof) :
    Lockstep all k (n + 1) (fun _ => True) returnStatement returnStatement :=
  .advance hk (optional_walks.consumes.bind fun _ => ((keeps_expect _ _).map _).lockstep)

theorem gotoStatement_paced (hk : k ≠ .eof) :
    Lockstep all k (n + 1) (fun _ => True) gotoStatement gotoStatement :=
  .advance hk ((keeps_expectName _).bind fun _ => (keeps_expect _ _).map _).lockstep

theorem blockItem_paced (hnested : Paced all n nested nested') :
    Lockstep all .eof n (·.isSome = true) (blockItem nested) (blockItem nested') :=
  .currentKind fun _ => .ite (.pure nofun) (hnested.map _).anywhere

theorem compound_paced (hnested : Paced all n nested nested') (pragmas : List String) :
    Paced all (n + 1) (compound nested pragmas) (compound nested' pragmas) :=
  .currentSpan fun _ => (expectPunct_consumes _ _).past fun _ =>
    (blockItem_paced hnested).many.withinBlock.bind fun _ =>
      ((keeps_expect _ _).bind fun _ => (keeps_spanFrom _).map _).lockstep

theorem forStatement_paced (hnested : Paced all n nested nested') :
    Paced all (n + 1) (forStatement nested) (forStatement nested') := by
  have hnumber : Keeps (Ahead False) (modifyGet fun s : State =>
      (s.nextLoop, { s with nextLoop := s.nextLoop + 1 }) : Parser LoopId) := by
    rintro s _ _ ⟨⟩
    exact ⟨List.suffix_rfl, rfl, False.elim⟩
  have hbody (id : LoopId) : Lockstep all .eof n (fun _ => False)
      (do let header ← forHeader id; return Stmt.forLoop header (← nested))
      (do let header ← forHeader id; return Stmt.forLoop header (← nested')) :=
    (forHeader_walks id).consumes.bind fun _ => hnested.map _
  exact hnumber.consumes.bind fun id => keeps_advance.consumes.bind fun _ =>
    (expectPunct_consumes _ _).past fun _ => (hbody id).withinBlock

theorem elseBranch_lockstep (hnested : Paced all n nested nested') :
    Lockstep all .eof n (fun _ => False) (elseBranch nested) (elseBranch nested') :=
  (keeps_accept _).consumes.bind fun _ => .ite (hnested.map _) (.pure not_false)

theorem ifStatement_paced (hk : k ≠ .eof) (hnested : Paced all n nested nested') :
    Lockstep all k (n + 1) (fun _ => True) (ifStatement nested) (ifStatement nested') :=
  .advance hk (parenthesizedCondition_walks.consumes.bind fun _ => hnested.bind fun _ =>
    (elseBranch_lockstep hnested).bind fun _ => .pure not_false)

theorem doWhileStatement_paced (hk : k ≠ .eof) (hnested : Paced all n nested nested') :
    Lockstep all k (n + 1) (fun _ => True) (doWhileStatement nested) (doWhileStatement nested') :=
  .advance hk (hnested.bind fun _ => (keeps_expect _ _).consumes.bind fun _ =>
    parenthesizedCondition_walks.consumes.bind fun _ =>
      ((keeps_expect _ _).map _).lockstep)

theorem labelOrOther_paced (hk : k ≠ .eof) (hnested : Paced all n nested nested') :
    Lockstep all k (n + 1) (fun _ => True) (labelOrOther nested) (labelOrOther nested') :=
  .still (fun _ _ _ => current_still) fun _ => .still (fun _ _ _ => peek_still) fun _ =>
    .ite (.advance hk (keeps_advance.consumes.bind fun _ => hnested.map _))
      declarationOrExpression_consumes.lockstep

theorem simpleStatement_paced (hnested : Paced all n nested nested') :
    Paced all (n + 1) (simpleStatement nested) (simpleStatement nested') := by
  have hcondition (f : Expr → Stmt → Site → Stmt) : Lockstep all .eof n (fun _ => False)
      (do let cond ← parenthesizedCondition; return f cond (← nested))
      (do let cond ← parenthesizedCondition; return f cond (← nested')) :=
    parenthesizedCondition_walks.consumes.bind fun _ => hnested.map _
  refine .currentKind fun k => ?_
  split
  · exact .advance nofun (.pure not_false)
  · exact (forStatement_paced hnested).anywhere
  · exact ifStatement_paced nofun hnested
  · exact .advance nofun (hcondition .whileLoop)
  · exact doWhileStatement_paced nofun hnested
  · exact .advance nofun (hcondition .switch)
  · exact .advance nofun ((formOf_consumes _).bind fun _ =>
      ((keeps_expect _ _).map _).lockstep)
  · exact .advance nofun ((keeps_expect _ _).map _).lockstep
  · exact .advance nofun ((keeps_expect _ _).map _).lockstep
  · exact .advance nofun ((keeps_expect _ _).map _).lockstep
  · exact returnStatement_paced nofun
  · exact gotoStatement_paced nofun
  · exact labelOrOther_paced nofun hnested
  · exact declarationOrExpression_consumes.lockstep

theorem statementOf_paced (hnested : Paced all n nested nested') :
    Paced all (n + 1) (statementOf nested) (statementOf nested') :=
  keeps_pragmaLine.many.consumes.bind fun pragmas => .currentSpan fun _ =>
    .check (compound_paced hnested pragmas).anywhere ((simpleStatement_paced hnested).past fun _ =>
      ((keeps_spanFrom _).map _).lockstep)

theorem statementWithin_consumes (n : Nat) : Consumes all (fun _ => True) (statementWithin n) := by
  induction n with
  | zero => exact fun _ _ _ _ h => absurd h fail_inv
  | succ n ih => exact .of_lockstep (statementOf_paced ih.lockstep)

theorem statement_consumes : Consumes all (fun _ => True) statement :=
  .of_lockstep (keeps_remaining.consumes.bind fun _ => (statementWithin_consumes _).lockstep)

end Statements

section Externals

theorem functionSymbol_keeps (name : String) (span : Span) :
    Keeps (Ahead False) (functionSymbol name span) := by
  refine keeps_scopes.bind fun sc => ?_
  split
  · exact .ite (.pure _) (bindName_keeps _)
  · exact bindName_keeps _

theorem functionAfter_consumes (start span : Span) (name : String) :
    Consumes all (fun _ => False) (functionAfter start name span) := by
  refine .of_lockstep ((functionSymbol_keeps name span).consumes.bind fun symbol =>
    keeps_advance.consumes.bind fun _ => parametersAndBody_walks.consumes.bind fun r => ?_)
  split
  · exact ((keeps_spanFrom _).map _).lockstep
  · exact ((keeps_expect _ _).map _).lockstep

theorem declaratorAfter_consumes (name : String) (span : Span) (pointer : Bool)
    (storage : Storage) :
    Consumes all (fun _ => False) (declaratorAfter name span pointer storage) :=
  .of_lockstep (dimensions_walks.consumes.bind fun _ => (bindName_keeps _).consumes.bind fun _ =>
    optionalInitializer_walks.consumes.bind fun _ => ((keeps_spanFrom _).map _).lockstep)

theorem globalAfter_consumes (start span : Span) (name : String) (pointer : Bool)
    (storage : Storage) :
    Consumes all (fun _ => False) (globalAfter start name span pointer storage) :=
  .of_lockstep ((declaratorAfter_consumes _ _ _ _).bind fun _ =>
    (declarator_walks storage).consumes.commaItem.lockstep.many.bind fun _ =>
      ((keeps_expect _ _).bind fun _ => (keeps_spanFrom _).map _).lockstep)

theorem externalAfter_consumes (start : Span) (storage : Storage) :
    Consumes all (fun _ => True) (externalAfter start storage) :=
  .of_lockstep (keeps_pointerMark.consumes.bind fun _ => .currentSpan fun _ =>
    (expectName_consumes _).past fun _ => (keeps_check _).consumes.bind fun _ =>
      .ite (functionAfter_consumes _ _ _).lockstep (globalAfter_consumes _ _ _ _ _).lockstep)

theorem externalDeclaration_consumes : Consumes all (fun _ => True) externalDeclaration :=
  .of_lockstep (.currentSpan fun _ => keeps_atType.consumes.bind fun _ => .ite
    (keeps_specifiers.consumes.bind fun _ =>
      .accept nofun (.pure not_false) (externalAfter_consumes _ _).lockstep)
    (.fail _))

theorem external_consumes : Consumes all (·.isSome = true) external := by
  refine .of_lockstep (.currentKind fun k => ?_)
  split
  · exact .pure nofun
  · exact .advance nofun (.pure not_false)
  · exact externalDeclaration_consumes.lockstep.map _

end Externals

end LoopLegality.Grammar

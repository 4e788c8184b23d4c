import LoopLegality.Proofs.Consumption
import LoopLegality.Proofs.Settling
import LoopLegality.Proofs.Tiling

namespace LoopLegality

namespace Token

/-- One step of a scan, with `rest` for the steps after it. -/
def scanTurn (rest : Bool → Position → List Char → Scan) (lineStart : Bool) (p : Position)
    (cs : List Char) : Scan :=
  match cs with
  | [] => endScan p
  | c :: cs =>
    match chunk lineStart c cs with
    | .layout extra =>
      let read := c :: cs.take extra
      rest (lineStart || read.contains '\n') (p.after read) (cs.drop extra)
    | .directive extra text =>
      let q := p.after (c :: cs.take extra)
      let rest := rest true q (cs.drop extra)
      if (Text.words text).head? = some "pragma".toList then
        .cons ⟨.pragma, String.ofList (Text.squeeze text), ⟨p, q⟩⟩ rest
      else rest
    | .lexeme extra kind =>
      let read := c :: cs.take extra
      let q := p.after read
      .cons ⟨kind, String.ofList read, ⟨p, q⟩⟩ (rest (read.contains '\n') q (cs.drop extra))
    | .fault extra cause => ⟨[], .error ⟨cause, ⟨p, p.after (c :: cs.take extra)⟩⟩⟩

variable {fuel : Nat} {lineStart : Bool} {p : Position} {cs : List Char}

theorem scanFrom_settles (h : cs.length ≤ fuel) :
    Settles scanTurn (· lineStart p cs) (fuel + 1) (scanFrom fuel lineStart p cs) := by
  intro rest
  induction fuel generalizing lineStart p cs with
  | zero =>
    obtain rfl := List.length_eq_zero_iff.mp (Nat.le_zero.mp h)
    rfl
  | succ fuel ih =>
    rw [Function.iterate_succ_apply']
    cases cs with
    | nil => rfl
    | cons c cs =>
      have hdrop (extra : Nat) : (cs.drop extra).length ≤ fuel := by
        rw [List.length_cons] at h
        rw [List.length_drop]
        omega
      cases hchunk : chunk lineStart c cs with
      | layout extra => simp only [scanTurn, scanFrom, hchunk, ih (hdrop _)]
      | directive extra text => simp only [scanTurn, scanFrom, hchunk, ih (hdrop _)]
      | lexeme extra kind => simp only [scanTurn, scanFrom, hchunk, ih (hdrop _)]
      | fault extra cause => simp only [scanTurn, scanFrom, hchunk]

theorem kind_of_mem_scanFrom {t : Token} (h : t ∈ (scanFrom fuel lineStart p cs).tokens) :
    t.kind ≠ .eof := by
  induction fuel generalizing lineStart p cs with
  | zero => cases cs <;> cases h
  | succ fuel ih =>
    cases cs with
    | nil => cases h
    | cons c cs =>
      rw [scanFrom] at h
      split at h
      · exact ih h
      · dsimp only at h
        split at h
        · obtain rfl | h := List.mem_cons.mp h
          · simp
          · exact ih h
        · exact ih h
      · next hchunk =>
        obtain rfl | h := List.mem_cons.mp h
        · exact (kind_of_chunk hchunk).1
        · exact ih h
      · cases h

end Token

namespace Grammar

open Lockstep (bind_agree)

variable {all : List Token} {s s' : State}

section Loops

variable {α ι : Type}

def loopTurn (step : Parser (Option α)) (rest : Parser (List α)) : Parser (List α) := do
  match ← step with
  | none => return []
  | some a => return a :: (← rest)

/-- A loop ends: it takes at most one turn more than there are tokens left. -/
def LoopEnds (step : Parser (Option α)) (s : State) : Prop :=
  Settles (loopTurn step) (· s) (s.tokens.length + 1) (many step s)

theorem Consumes.loopEnds {step : Parser (Option α)} (hstep : Consumes all (·.isSome = true) step)
    (w : Within all s) : LoopEnds step s := by
  have hloop : Measured (loopTurn step) (repeatStep step) (fun rest s => rest s) (fun _ => True)
      (Within all) (·.tokens.length) := by
    refine ⟨fun _ => rfl, fun _ => trivial, fun f g s _ w h => bind_agree rfl fun r s' hr => ?_⟩
    have hahead := hstep w hr
    cases r with
    | none => rfl
    | some a => exact bind_agree (h s' (hahead.within w) (hahead.shorter rfl)) fun _ _ _ => rfl
  exact hloop.settles w (Nat.lt_succ_self _)

/-- Parsers for every value of a parameter, each of which hands the text on only behind a token. -/
theorem settles_of_shorter (body : (ι → Parser α) → ι → Parser α) (unfolding : Nat → ι → Parser α)
    (hsucc : ∀ n, unfolding (n + 1) = body (unfolding n))
    (hbody : ∀ ⦃f g : ι → Parser α⦄ ⦃i s⦄, Within all s → (∀ j s', Within all s' →
      s'.tokens.length < s.tokens.length → f j s' = g j s') → body f i s = body g i s)
    (w : Within all s) (i : ι) :
    Settles body (· i s) (s.tokens.length + 1) (unfolding (s.tokens.length + 1) i s) := by
  have hmeasured : Measured body unfolding (fun f (x : ι × State) => f x.1 x.2) (fun _ => True)
      (fun x => Within all x.2) (·.2.tokens.length) :=
    ⟨hsucc, fun _ => trivial, fun f g x _ w h => hbody w fun j s' => h (j, s')⟩
  exact hmeasured.settles (x := (i, s)) w (Nat.lt_succ_self _)

def extendTurn (step : α → Parser (Option α)) (rest : α → Parser α) (a : α) : Parser α := do
  match ← step a with
  | none => return a
  | some b => rest b

theorem Consumes.extend_ends {step : α → Parser (Option α)}
    (hstep : ∀ a, Consumes all (·.isSome = true) (step a)) (w : Within all s) (a : α) :
    Settles (extendTurn step) (· a s) (s.tokens.length + 1) (extend step a s) := by
  refine settles_of_shorter (extendTurn step) (extendStep step) (fun _ => rfl)
    (fun f g a s w h => bind_agree rfl fun r s' hr => ?_) w a
  have hahead := hstep a w hr
  cases r with
  | none => rfl
  | some b => exact h b s' (hahead.within w) (hahead.shorter rfl)

def skipTurn (rest : Nat → Parser Unit) (depth : Nat) : Parser Unit := do
  let depth ← match ← currentKind with
    | .punct .leftBrace => pure (depth + 1)
    | .punct .rightBrace => pure (depth - 1)
    | .eof => fail .openStructBody
    | _ => pure depth
  advance
  if depth = 0 then return () else rest depth

theorem skipBraces_ends (w : Within all s) (depth : Nat) :
    Settles skipTurn (· depth s) (s.tokens.length + 1)
      (skipBraces (s.tokens.length + 1) depth s) := by
  refine settles_of_shorter skipTurn skipBraces (fun _ => rfl) (fun f g depth s w h => ?_) w depth
  refine bind_agree rfl fun k s₁ hk => ?_
  obtain ⟨rfl, hsees⟩ := currentKind_inv hk
  have hread (hne : k ≠ .eof) (d : Nat) :
      (do advance; if d = 0 then return () else f d) s₁ =
        (do advance; if d = 0 then return () else g d) s₁ := by
    refine bind_agree rfl fun _ s' hadvance => ?_
    have hahead := hsees.advance hne w hadvance
    split
    · rfl
    · exact h d s' (hahead.within w) (hahead.shorter trivial)
  split
  · exact hread nofun _
  · exact hread nofun _
  · exact bind_agree rfl fun _ _ hfail => absurd hfail fail_inv
  · next hne => exact hread hne _

def itemTurn (item : Parser Initializer) (rest : Bool → Parser (List Initializer)) (more : Bool) :
    Parser (List Initializer) := do
  match ← initializerItem item more with
  | none => return []
  | some (more, i) => return i :: (← rest more)

theorem initializerItems_ends {item : Parser Initializer}
    (hitem : Consumes all (fun _ => True) item) (w : Within all s) (more : Bool) :
    Settles (itemTurn item) (· more s) (s.tokens.length + 1)
      (initializerItems item (s.tokens.length + 1) more s) := by
  refine settles_of_shorter (itemTurn item) (initializerItems item) (fun _ => rfl)
    (fun f g more s w h => bind_agree rfl fun r s' hr => ?_) w more
  have hahead := (initializerItem_paced (n := 0) hitem.lockstep more).toConsumes w hr
  cases r with
  | none => rfl
  | some p =>
    exact bind_agree (h p.1 s' (hahead.within w) (hahead.shorter rfl)) fun _ _ _ => rfl

def parameterTurn (rest : Nat → Parser (List Declarator)) (position : Nat) :
    Parser (List Declarator) := do
  let p ← parameter position
  if ← accept (.punct .comma) then
    return p :: (← rest (position + 1))
  return [p]

theorem parametersFrom_ends (w : Within all s) (position : Nat) :
    Settles parameterTurn (· position s) (s.tokens.length + 1)
      (parametersFrom (s.tokens.length + 1) position s) := by
  refine settles_of_shorter parameterTurn parametersFrom (fun _ => rfl)
    (fun f g position s w h => bind_agree rfl fun p s₁ hp => ?_) w position
  have hparameter := (parameter_walks position).consumes w hp
  refine bind_agree rfl fun b s₂ hb => ?_
  obtain ⟨rfl, hcomma⟩ | ⟨rfl, rfl⟩ :=
    accept_inv (k := .punct .comma) nofun (hparameter.within w) hb
  · have hahead := hparameter.trans hcomma
    exact bind_agree (h _ s₂ (hahead.within w) (hahead.shorter (.inr trivial))) fun _ _ _ => rfl
  · rfl

end Loops

section Recursions

def formTurn (rest : Form → Parser Expr) : Form → Parser Expr
  | .sequence => sequenceForm (rest .assignment)
  | .assignment => assignmentForm (rest .conditional) (rest .assignment)
  | .conditional => conditionalForm (rest (.binary 0)) (rest .sequence) (rest .conditional)
  | .binary level =>
    if level < binaryLevels then binaryForm level (rest (.binary (level + 1))) else rest .unary
  | .unary => unaryForm (rest .unary) (rest .sequence) (rest .assignment)

def Form.descent : Form → Nat
  | .sequence => 14
  | .assignment => 13
  | .conditional => 12
  | .binary level => 10 - level + 1
  | .unary => 0

theorem Form.descent_lt (f : Form) : f.descent < 16 := by
  cases f <;> simp only [descent] <;> omega

theorem Form.size_lt (f : Form) (n : Nat) : 16 * n + f.descent < 16 * (n + 1) := by
  have hdescent := f.descent_lt
  omega

theorem form_measured : Measured formTurn form (fun rest (x : Form × State) => rest x.1 x.2)
    (fun rest => ∀ f, Consumes all (fun _ => True) (rest f)) (fun x => Within all x.2)
    (fun x => 16 * x.2.tokens.length + x.1.descent) := by
  refine ⟨fun n => ?_, form_consumes, ?_⟩
  · funext f
    cases f <;> rfl
  · rintro rest rest' ⟨f, s⟩ hrest w h
    -- A tighter form is read where the form itself is, any form behind a token.
    have htighter {f' : Form} (hlt : f'.descent < f.descent) :
        Paced all (s.tokens.length + 1) (rest f') (rest' f') :=
      (hrest f').paced fun s' w' hlen => h (f', s') w' (by dsimp only; omega)
    have hbehind (f' : Form) : Paced all s.tokens.length (rest f') (rest' f') := by
      have hdescent := f'.descent_lt
      exact (hrest f').paced fun s' w' hlen => h (f', s') w' (by dsimp only; omega)
    have hform : Paced all (s.tokens.length + 1) (formTurn rest f) (formTurn rest' f) := by
      cases f with
      | sequence => exact sequenceForm_paced (htighter (by decide))
      | assignment => exact assignmentForm_paced (htighter (by decide)) (hbehind _)
      | conditional => exact conditionalForm_paced (htighter (by decide)) (hbehind _) (hbehind _)
      | binary level =>
        rw [formTurn, formTurn]
        split
        · next hlevel =>
          rw [binaryLevels] at hlevel
          exact binaryForm_paced (htighter (by simp only [Form.descent]; omega)) level
        · exact htighter (by simp only [Form.descent]; omega)
      | unary => exact unaryForm_paced (hbehind _) (hbehind _) (hbehind _)
    exact hform.agree w sees_eof (Nat.lt_succ_self _)

theorem measured_of_paced {α : Type} {body : Parser α → Parser α} {unfolding : Nat → Parser α}
    (hsucc : ∀ n, unfolding (n + 1) = body (unfolding n))
    (hconsumes : ∀ n, Consumes all (fun _ => True) (unfolding n))
    (hpaced : ∀ {n p q}, Paced all n p q → Paced all (n + 1) (body p) (body q)) :
    Measured body unfolding (fun rest s => rest s) (Consumes all fun _ => True) (Within all)
      (·.tokens.length) := by
  refine ⟨hsucc, hconsumes, fun rest rest' s hrest w h => ?_⟩
  exact (hpaced (hrest.paced h)).agree w sees_eof (Nat.lt_succ_self _)

theorem statement_measured : Measured statementOf statementWithin (fun rest s => rest s)
    (Consumes all fun _ => True) (Within all) (·.tokens.length) :=
  measured_of_paced (fun _ => rfl) statementWithin_consumes statementOf_paced

theorem initializer_measured : Measured initializerOf initializerWithin (fun rest s => rest s)
    (Consumes all fun _ => True) (Within all) (·.tokens.length) :=
  measured_of_paced (fun _ => rfl) initializerWithin_consumes initializerOf_paced

end Recursions

/-- What reads on from a state comes to its end, whatever stands for further turns and deeper calls:
each loop after at most one turn more than there are tokens left, each recursion at a depth that
their number bounds. The recursions themselves know no bound: `formOf`, `initializer` and
`statement` are what their bodies make of them. -/
structure ReadingEnds (s : State) : Prop where
  specifierLoop : LoopEnds specifier s
  starLoop : LoopEnds starText s
  stringLoop : LoopEnds stringPart s
  qualifierLoop : LoopEnds qualifier s
  pointerLoop : LoopEnds qualifiedStar s
  dimensionLoop : LoopEnds dimension s
  pragmaLoop : LoopEnds pragmaLine s
  blockLoop : LoopEnds (blockItem statement) s
  expressionLoop : LoopEnds (commaItem assignment) s
  declaratorLoop : ∀ storage, LoopEnds (commaItem (declarator storage)) s
  externalLoop : LoopEnds external s
  operatorLoop : ∀ level e,
    Settles (extendTurn (binaryForm.step (formOf (.binary (level + 1))) level)) (· e s)
      (s.tokens.length + 1) (extend (binaryForm.step (formOf (.binary (level + 1))) level) e s)
  postfixLoop : ∀ e,
    Settles (extendTurn (postfixStep expression assignment)) (· e s) (s.tokens.length + 1)
      (extend (postfixStep expression assignment) e s)
  braceLoop : ∀ depth, Settles skipTurn (· depth s) (s.tokens.length + 1)
    (skipBraces (s.tokens.length + 1) depth s)
  itemLoop : ∀ more, Settles (itemTurn initializer) (· more s) (s.tokens.length + 1)
    (initializerItems initializer (s.tokens.length + 1) more s)
  parameterLoop : ∀ position, Settles parameterTurn (· position s) (s.tokens.length + 1)
    (parametersFrom (s.tokens.length + 1) position s)
  formDepth : ∀ f, Settles formTurn (· f s) (16 * (s.tokens.length + 1)) (formOf f s)
  formUnfolds : ∀ f, formTurn formOf f s = formOf f s
  initializerDepth : Settles initializerOf (· s) (s.tokens.length + 1) (initializer s)
  initializerUnfolds : initializerOf initializer s = initializer s
  statementDepth : Settles statementOf (· s) (s.tokens.length + 1) (statement s)
  statementUnfolds : statementOf statement s = statement s

theorem Within.readingEnds (w : Within all s) : ReadingEnds s where
  specifierLoop := specifier_consumes.loopEnds w
  starLoop := starText_consumes.loopEnds w
  stringLoop := stringPart_consumes.loopEnds w
  qualifierLoop := qualifier_consumes.loopEnds w
  pointerLoop := qualifiedStar_consumes.loopEnds w
  dimensionLoop := dimension_consumes.loopEnds w
  pragmaLoop := pragmaLine_consumes.loopEnds w
  blockLoop := (blockItem_paced (n := 0) statement_consumes.lockstep).toConsumes.loopEnds w
  expressionLoop := (formOf_consumes .assignment).commaItem.loopEnds w
  declaratorLoop storage := (declarator_walks storage).consumes.commaItem.loopEnds w
  externalLoop := external_consumes.loopEnds w
  operatorLoop level := Consumes.extend_ends (fun e =>
    (binaryStep_paced (n := 0) (formOf_consumes _).lockstep level e).toConsumes) w
  postfixLoop := Consumes.extend_ends (fun e => (postfixStep_paced (n := 0)
    (formOf_consumes _).lockstep (formOf_consumes _).lockstep e).toConsumes) w
  braceLoop := skipBraces_ends w
  itemLoop := initializerItems_ends initializer_consumes w
  parameterLoop := parametersFrom_ends w
  formDepth f := form_measured.settles (x := (f, s)) w (f.size_lt _)
  formUnfolds f :=
    form_measured.unfolds (x := (f, s)) (fun _ => rfl) (fun x => x.1.size_lt _) w
  initializerDepth := initializer_measured.settles w (Nat.lt_succ_self _)
  initializerUnfolds := initializer_measured.unfolds (fun _ => rfl) (fun _ => Nat.lt_succ_self _) w
  statementDepth := statement_measured.settles w (Nat.lt_succ_self _)
  statementUnfolds := statement_measured.unfolds (fun _ => rfl) (fun _ => Nat.lt_succ_self _) w

section Last

variable {α : Type} {step : Parser (Option α)} {as : List α}

theorem repeatStep_last {n : Nat} (hstep : Consumes all (·.isSome = true) step) (w : Within all s)
    (hn : s.tokens.length < n) (h : repeatStep step n s = .ok (as, s')) :
    ∃ s₁, Within all s₁ ∧ step s₁ = .ok (none, s') := by
  induction n generalizing s as with
  | zero => exact absurd hn (Nat.not_lt_zero _)
  | succ n ih =>
    obtain ⟨r, s₁, hr, h⟩ := bind_inv h
    have hahead := hstep w hr
    cases r with
    | none =>
      cases h
      exact ⟨s, w, hr⟩
    | some a =>
      obtain ⟨bs, s₂, hrest, h⟩ := bind_inv h
      cases h
      have hshorter := hahead.shorter rfl
      exact ih (hahead.within w) (by omega) hrest

theorem many_last (hstep : Consumes all (·.isSome = true) step) (w : Within all s)
    (h : many step s = .ok (as, s')) : ∃ s₁, Within all s₁ ∧ step s₁ = .ok (none, s') :=
  repeatStep_last hstep w (Nat.lt_succ_self s.tokens.length) h

theorem Heads.eof {t : Token} (hkinds : ∀ t ∈ all, t.kind ≠ .eof) (w : Within all s)
    (ht : Heads s t) (hk : t.kind = .eof) : s.tokens = [] ∧ s.ending = .ok t := by
  rw [Heads] at ht
  cases htokens : s.tokens with
  | cons u rest =>
    rw [htokens] at ht
    cases ht
    have hmem : t ∈ s.tokens := htokens ▸ List.mem_cons_self
    exact absurd hk (hkinds t (w.tokens.subset hmem))
  | nil =>
    rw [htokens] at ht
    cases hending : s.ending with
    | error e =>
      rw [hending] at ht
      cases ht
    | ok eof =>
      rw [hending] at ht
      cases ht
      exact ⟨rfl, rfl⟩

theorem externals_last {es : List External} (hkinds : ∀ t ∈ all, t.kind ≠ .eof) (w : Within all s)
    (h : externals s = .ok (es, s')) :
    ∃ eof, s'.tokens = [] ∧ s'.ending = .ok eof ∧ eof.kind = .eof := by
  obtain ⟨s₁, w₁, hlast⟩ := many_last external_consumes w h
  obtain ⟨t, k, ht, hk, hnone⟩ := currentKind_bind hlast
  split at hnone
  · cases hnone
    obtain ⟨htokens, hending⟩ := ht.eof hkinds w₁ hk
    exact ⟨t, htokens, hending, hk⟩
  · obtain ⟨_, s₂, -, hnone⟩ := bind_inv hnone
    cases hnone
  · obtain ⟨_, s₂, -, hnone⟩ := bind_inv hnone
    cases hnone

end Last

section End

variable {eof : Token} {sc : Scopes} {span : Span} {loop : Nat}

theorem specifiers_eof (hk : eof.kind = .eof) :
    specifiers ⟨[], .ok eof, span, sc, loop⟩ = .ok ([], ⟨[], .ok eof, span, sc, loop⟩) := by
  obtain ⟨kind, lexeme, place⟩ := eof
  cases hk
  rfl

theorem skipBraces_eof (hk : eof.kind = .eof) (n depth : Nat) :
    skipBraces (n + 1) depth ⟨[], .ok eof, span, sc, loop⟩ =
      .error (.parse ⟨.openStructBody, eof.span, .eof⟩) := by
  obtain ⟨kind, lexeme, place⟩ := eof
  cases hk
  rfl

end End

end Grammar

namespace Program

open Grammar

/-- Parsing ends. The scan comes to its end, and so does all that reads its tokens, wherever in the
text it begins. A program is yielded where every token is read; all else is an error of the scan or
of the parser. Statements, assignments and declarations of a file read a token whenever they
succeed. Where the text ends, so do specifiers and what is skipped between braces. -/
theorem parse_ends (source : String) :
    Settles Token.scanTurn (· true .start source.toList) (source.toList.length + 1)
      (Token.scan source) ∧
    (∀ s, Within (Token.scan source).tokens s → ReadingEnds s) ∧
    ((∃ es s eof, externals (.start (Token.scan source)) = .ok (es, s) ∧ s.tokens = [] ∧
        s.ending = .ok eof ∧ eof.kind = .eof ∧
        parse source = .ok (.ofExternals es s.scopes.table)) ∨
      (∃ e, parse source = .error (.lex e)) ∨ ∃ e, parse source = .error (.parse e)) ∧
    (Consumes (Token.scan source).tokens (fun _ => True) statement ∧
      Consumes (Token.scan source).tokens (fun _ => True) assignment ∧
      Consumes (Token.scan source).tokens (fun _ => True) externalDeclaration) ∧
    ∀ s eof, s.tokens = [] → s.ending = .ok eof → eof.kind = .eof →
      specifiers s = .ok ([], s) ∧ ∀ n depth,
        skipBraces (n + 1) depth s = .error (.parse ⟨.openStructBody, eof.span, .eof⟩) := by
  refine ⟨Token.scanFrom_settles le_rfl, fun s w => w.readingEnds, ?_,
    ⟨statement_consumes, formOf_consumes _, externalDeclaration_consumes⟩, ?_⟩
  · rw [parse]
    cases hparse : externals (.start (Token.scan source)) with
    | ok r =>
      obtain ⟨es, s⟩ := r
      obtain ⟨eof, htokens, hending, hk⟩ :=
        externals_last (fun t => Token.kind_of_mem_scanFrom) (within_start source) hparse
      exact .inl ⟨es, s, eof, rfl, htokens, hending, hk, rfl⟩
    | error e =>
      cases e with
      | lex e => exact .inr (.inl ⟨e, rfl⟩)
      | parse e => exact .inr (.inr ⟨e, rfl⟩)
  · rintro ⟨tokens, ending, span, sc, loop⟩ eof rfl rfl hk
    exact ⟨specifiers_eof hk, skipBraces_eof hk⟩

end Program

end LoopLegality

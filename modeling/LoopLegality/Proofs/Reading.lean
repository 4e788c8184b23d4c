import LoopLegality.Proofs.Execution
import LoopLegality.Proofs.Printed

namespace LoopLegality

namespace Expr

mutual

def erase : Expr → Expr
  | int n _ => int n .none
  | float b _ => float b .none
  | char t _ => char t .none
  | str t _ => str t .none
  | ident x _ => ident x .none
  | field o m a _ => field o.erase m a .none
  | subscript b i _ => subscript b.erase i.erase .none
  | call f as _ => call f.erase (eraseAll as) .none
  | unary op e _ => unary op e.erase .none
  | binary op l r _ => binary op l.erase r.erase .none
  | assign op l r _ => assign op l.erase r.erase .none
  | conditional c t f _ => conditional c.erase t.erase f.erase .none
  | cast t e _ => cast t e.erase .none
  | sizeOfType _ => sizeOfType .none
  | sizeOf e _ => sizeOf e.erase .none
  | comma es _ => comma (eraseAll es) .none

def eraseAll : List Expr → List Expr
  | [] => []
  | e :: es => e.erase :: eraseAll es

end

@[simp] theorem erase_withSpan (e : Expr) (s : Span) : (e.withSpan s).erase = e.erase := by
  cases e <;> rfl

theorem subscriptChain?_erase (e : Expr) : e.erase.subscriptChain? = e.subscriptChain? := by
  induction e using subscriptChain?.induct with
  | case1 => rfl
  | case2 b i s hb ih =>
    -- Erasing keeps the constructor of the base, so the base is no name on either side.
    cases b with
    | ident x t => exact absurd rfl (hb x t)
    | _ => simp_all [erase, subscriptChain?]
  | case3 e h =>
    cases e with
    | subscript b i s => exact absurd rfl (h b i s)
    | _ => rfl

end Expr

def UnaryOp.punct : UnaryOp → Punct
  | plus => .plus | neg => .minus | not => .bang | complement => .tilde | addressOf => .amp
  | deref => .star | preIncr | postIncr => .plusPlus | preDecr | postDecr => .minusMinus

namespace BinaryOp

def punct : BinaryOp → Punct
  | or => .pipePipe | and => .ampAmp | bitOr => .pipe | bitXor => .caret | bitAnd => .amp
  | eq => .equalEqual | ne => .bangEqual | lt => .less | le => .lessEqual | gt => .greater
  | ge => .greaterEqual | shl => .shiftLeft | shr => .shiftRight | add => .plus | sub => .minus
  | mul => .star | div => .slash | mod => .percent

def level : BinaryOp → Nat
  | or => 0 | and => 1 | bitOr => 2 | bitXor => 3 | bitAnd => 4
  | eq | ne => 5
  | lt | le | gt | ge => 6
  | shl | shr => 7
  | add | sub => 8
  | mul | div | mod => 9

theorem level_lt (op : BinaryOp) : op.level < 10 := by
  cases op <;> decide

theorem punct_injective {a b : BinaryOp} (h : a.punct = b.punct) : a = b := by
  cases a <;> cases b <;> first | rfl | cases h

end BinaryOp

namespace Grammar

open Lexeme

variable {α β : Type} {eof t : Token} {sc : Scopes} {nl : Nat} {ts : List Token} {p : Span}

theorem bind_eq {m : Parser α} {f : α → Parser β} {s s' : State} {a : α}
    (hm : m s = .ok (a, s')) : (m >>= f) s = f a s' := by
  show StateT.bind m f s = _
  rw [StateT.bind, hm]
  rfl

theorem bind_ok {m : Parser α} {f : α → Parser β} {s s' s'' : State} {a : α} {b : β}
    (hm : m s = .ok (a, s')) (hf : f a s' = .ok (b, s'')) : (m >>= f) s = .ok (b, s'') :=
  (bind_eq hm).trans hf

theorem current_eq : current ⟨ts, .ok eof, p, sc, nl⟩ =
    .ok (ts.headD eof, ⟨ts, .ok eof, p, sc, nl⟩) := by
  cases ts <;> rfl

theorem current_cons : current ⟨t :: ts, .ok eof, p, sc, nl⟩ =
    .ok (t, ⟨t :: ts, .ok eof, p, sc, nl⟩) :=
  rfl

theorem peek_eq : peek ⟨ts, .ok eof, p, sc, nl⟩ =
    .ok (ts.tail.headD eof, ⟨ts, .ok eof, p, sc, nl⟩) := by
  rcases ts with _ | ⟨t, _ | ⟨u, ts⟩⟩ <;> rfl

theorem advance_cons : advance ⟨t :: ts, .ok eof, p, sc, nl⟩ =
    .ok ((), ⟨ts, .ok eof, t.span, sc, nl⟩) := by
  cases ts <;> rfl

theorem currentKind_eq : currentKind ⟨ts, .ok eof, p, sc, nl⟩ =
    .ok ((ts.headD eof).kind, ⟨ts, .ok eof, p, sc, nl⟩) :=
  bind_ok current_eq rfl

theorem currentKind_of_eq {k : Token.Kind} (h : t.kind = k) :
    currentKind ⟨t :: ts, .ok eof, p, sc, nl⟩ = .ok (k, ⟨t :: ts, .ok eof, p, sc, nl⟩) := by
  cases h
  exact currentKind_eq

theorem currentSpan_cons : currentSpan ⟨t :: ts, .ok eof, p, sc, nl⟩ =
    .ok (t.span, ⟨t :: ts, .ok eof, p, sc, nl⟩) :=
  rfl

theorem check_of_eq {k : Token.Kind} (h : (ts.headD eof).kind = k) :
    check k ⟨ts, .ok eof, p, sc, nl⟩ = .ok (true, ⟨ts, .ok eof, p, sc, nl⟩) := by
  rw [← decide_eq_true h]
  exact bind_ok currentKind_eq rfl

theorem check_of_ne {k : Token.Kind} (h : (ts.headD eof).kind ≠ k) :
    check k ⟨ts, .ok eof, p, sc, nl⟩ = .ok (false, ⟨ts, .ok eof, p, sc, nl⟩) := by
  rw [← decide_eq_false h]
  exact bind_ok currentKind_eq rfl

theorem accept_of_ne {k : Token.Kind} (h : (ts.headD eof).kind ≠ k) :
    accept k ⟨ts, .ok eof, p, sc, nl⟩ = .ok (false, ⟨ts, .ok eof, p, sc, nl⟩) :=
  bind_ok (check_of_ne h) rfl

theorem accept_of_eq {k : Token.Kind} (h : t.kind = k) :
    accept k ⟨t :: ts, .ok eof, p, sc, nl⟩ = .ok (true, ⟨ts, .ok eof, t.span, sc, nl⟩) :=
  bind_ok (check_of_eq h) (bind_ok advance_cons rfl)

theorem expect_of_eq {k : Token.Kind} {place : String} (h : t.kind = k) :
    expect k place ⟨t :: ts, .ok eof, p, sc, nl⟩ = .ok ((), ⟨ts, .ok eof, t.span, sc, nl⟩) :=
  bind_ok (check_of_eq h) advance_cons

theorem typeFollows_eq : typeFollows ⟨ts, .ok eof, p, sc, nl⟩ =
    .ok (startsType sc (ts.tail.headD eof), ⟨ts, .ok eof, p, sc, nl⟩) :=
  bind_ok peek_eq rfl

theorem atType_eq : atType ⟨ts, .ok eof, p, sc, nl⟩ =
    .ok (startsType sc (ts.headD eof), ⟨ts, .ok eof, p, sc, nl⟩) :=
  bind_ok rfl (bind_ok current_eq rfl)

theorem lexemeAndAdvance_eq : lexemeAndAdvance ⟨t :: ts, .ok eof, p, sc, nl⟩ =
    .ok (t.lexeme, ⟨ts, .ok eof, t.span, sc, nl⟩) :=
  bind_ok current_cons (bind_ok advance_cons rfl)

theorem expectName_of_eq {what : String} (h : t.kind = .identifier) :
    expectName what ⟨t :: ts, .ok eof, p, sc, nl⟩ =
      .ok (t.lexeme, ⟨ts, .ok eof, t.span, sc, nl⟩) := by
  refine bind_ok current_cons ?_
  rw [if_pos h]
  exact bind_ok advance_cons rfl

theorem bindName_of_eq {f : Scopes → Symbol × Scopes} {x : Symbol} (h : f sc = (x, sc)) :
    bindName f ⟨ts, .ok eof, p, sc, nl⟩ = .ok (x, ⟨ts, .ok eof, p, sc, nl⟩) := by
  refine bind_ok (a := sc) rfl ?_
  simp only [h]
  rfl

/-- `step` yields something again and again, from `a` before `s` to `b` before `s'`, and reads
a token each time. -/
inductive Steps (step : α → Parser (Option α)) (a : α) (s : State) : α → State → Prop
  | refl : Steps step a s a s
  | tail {b c : α} {s₁ s₂ : State} : Steps step a s b s₁ → step b s₁ = .ok (some c, s₂) →
      s₂.tokens.length < s₁.tokens.length → Steps step a s c s₂

theorem Steps.extendStep_eq {step : α → Parser (Option α)} {a b : α} {s s' : State}
    (h : Steps step a s b s') : ∃ k, k + s'.tokens.length ≤ s.tokens.length ∧
      ∀ n, extendStep step (n + k) a s = extendStep step n b s' := by
  induction h with
  | refl => exact ⟨0, by omega, fun n => rfl⟩
  | tail _ hstep hlt ih =>
    obtain ⟨k, hk, hrun⟩ := ih
    refine ⟨k + 1, by omega, fun n => ?_⟩
    rw [show n + (k + 1) = n + 1 + k by omega, hrun, extendStep, bind_eq hstep]

theorem Steps.extend_eq {step : α → Parser (Option α)} {a b : α} {s s' : State}
    (h : Steps step a s b s') (hstop : step b s' = .ok (none, s')) :
    extend step a s = .ok (b, s') := by
  obtain ⟨k, hk, hrun⟩ := h.extendStep_eq
  refine bind_ok (a := s.tokens.length) rfl ?_
  rw [show s.tokens.length + 1 = s.tokens.length - k + 1 + k by omega, hrun]
  exact bind_ok hstop rfl

/-- `step` yields the items `as` from `s` on, reads a token for each, and has no more at `s'`. -/
inductive Runs (step : Parser (Option α)) : State → List α → State → Prop
  | nil {s : State} : step s = .ok (none, s) → Runs step s [] s
  | cons {a : α} {as : List α} {s s₁ s₂ : State} : step s = .ok (some a, s₁) →
      s₁.tokens.length < s.tokens.length → Runs step s₁ as s₂ → Runs step s (a :: as) s₂

theorem Runs.repeatStep_eq {step : Parser (Option α)} {as : List α} {s s' : State}
    (h : Runs step s as s') {n : Nat} (hn : s.tokens.length < n) :
    repeatStep step n s = .ok (as, s') := by
  induction h generalizing n with
  | nil hstop =>
    obtain ⟨n, rfl⟩ : ∃ m, n = m + 1 := ⟨n - 1, by omega⟩
    exact bind_ok hstop rfl
  | cons hstep hlt _ ih =>
    obtain ⟨n, rfl⟩ : ∃ m, n = m + 1 := ⟨n - 1, by omega⟩
    exact bind_ok hstep (bind_ok (ih (by omega)) rfl)

theorem Runs.many_eq {step : Parser (Option α)} {as : List α} {s s' : State}
    (h : Runs step s as s') : many step s = .ok (as, s') :=
  bind_ok rfl (h.repeatStep_eq (Nat.lt_succ_self _))

theorem prefixOp?_punct {op : UnaryOp} (h : op.isPostfix = false) :
    prefixOp? (.punct op.punct) = some op := by
  cases op <;> cases h <;> rfl

theorem binaryOp?_eq_some {l : Nat} {k : Token.Kind} {op : BinaryOp} :
    binaryOp? l k = some op ↔ k = .punct op.punct ∧ l = op.level := by
  constructor
  · intro h
    unfold binaryOp? at h
    split at h <;> cases h <;> exact ⟨rfl, rfl⟩
  · rintro ⟨rfl, rfl⟩
    cases op <;> rfl

/-- The forms from the loosest one on, with unary expressions as form 13. -/
def formAt : Nat → Form
  | 0 => .sequence
  | 1 => .assignment
  | 2 => .conditional
  | l + 3 => .binary l

def suffixes : List Punct := [.leftBracket, .leftParen, .dot, .arrow, .plusPlus, .minusMinus]

/-- No expression of form `k` goes on with a token of this kind. -/
structure Stops (k : Nat) (kind : Token.Kind) : Prop where
  comma : k = 0 → kind ≠ .punct .comma
  assign : k ≤ 1 → assignOp? kind = none
  question : k ≤ 2 → kind ≠ .punct .question
  binary : ∀ l, k ≤ l + 3 → binaryOp? l kind = none
  suffix : ∀ p ∈ suffixes, kind ≠ .punct p

theorem Stops.mono {k k' : Nat} {kind : Token.Kind} (h : Stops k kind) (hk : k ≤ k') :
    Stops k' kind where
  comma hk' := h.comma (by omega)
  assign hk' := h.assign (by omega)
  question hk' := h.question (by omega)
  binary l hl := h.binary l (by omega)
  suffix := h.suffix

theorem binaryOp?_eq_none {k : Token.Kind} (h : ∀ op : BinaryOp, k ≠ .punct op.punct) (l : Nat) :
    binaryOp? l k = none := by
  cases hop : binaryOp? l k with
  | none => rfl
  | some op => exact absurd (binaryOp?_eq_some.mp hop).1 (h op)

theorem stops_of_closer {k : Token.Kind} (h : k = .punct .rightParen ∨ k = .punct .rightBracket ∨
    k = .punct .colon ∨ k = .eof) : Stops 0 k := by
  obtain rfl | rfl | rfl | rfl := h <;>
    exact ⟨fun _ => by decide, fun _ => rfl, fun _ => by decide,
      fun l _ => binaryOp?_eq_none (by intro op; cases op <;> decide) l, by decide⟩

theorem stops_comma : Stops 1 (.punct .comma) :=
  ⟨fun h => by omega, fun _ => rfl, fun _ => by decide,
    fun l _ => binaryOp?_eq_none (by intro op; cases op <;> decide) l, by decide⟩

theorem stops_assign {p : Punct} {op : AssignOp} (h : assignOp? (.punct p) = some op) :
    Stops 2 (.punct p) := by
  cases p <;> cases h <;>
    exact ⟨fun h => by omega, fun h => by omega, fun _ => by decide,
      fun l _ => binaryOp?_eq_none (by intro op; cases op <;> decide) l, by decide⟩

theorem stops_question : Stops 3 (.punct .question) :=
  ⟨fun h => by omega, fun h => by omega, fun h => by omega,
    fun l _ => binaryOp?_eq_none (by intro op; cases op <;> decide) l, by decide⟩

theorem stops_binary (op : BinaryOp) : Stops (op.level + 4) (.punct op.punct) where
  comma h := by omega
  assign h := by omega
  question h := by omega
  binary l hl := by
    cases hop : binaryOp? l (.punct op.punct) with
    | none => rfl
    | some op' =>
      obtain ⟨hp, rfl⟩ := binaryOp?_eq_some.mp hop
      cases BinaryOp.punct_injective (Token.Kind.punct.inj hp)
      omega
  suffix := by cases op <;> decide

/-- The parser reads the input up to `rest` and yields `e`, wherever it stands. -/
def Parses (m : Parser Expr) (s : State) (rest : List Token) (e : Expr) : Prop :=
  ∃ e' p', m s = .ok (e', { s with tokens := rest, previous := p' }) ∧ e'.erase = e.erase

/-- The word begins neither a type nor the end of a list of arguments. -/
def Opens (sc : Scopes) : Lexeme → Prop
  | number _ => True
  | name s => (sc.lookup? s).isSome
  | word _ => False
  | punct p => p ≠ .rightParen

def Opening (sc : Scopes) (ws : List Lexeme) : Prop := ∃ w ∈ ws.head?, Opens sc w

theorem Opening.append {ws : List Lexeme} (h : Opening sc ws) (us : List Lexeme) :
    Opening sc (ws ++ us) := by
  obtain ⟨w, hw, ho⟩ := h
  exact ⟨w, by cases ws <;> simp_all, ho⟩

theorem Opening.pos {ws : List Lexeme} (h : Opening sc ws) : 0 < ws.length := by
  obtain ⟨w, hw, -⟩ := h
  cases ws with
  | nil => cases hw
  | cons => simp

theorem startsType_of_opens {w : Lexeme} (hw : Opens sc w) (ht : Spells w t) :
    startsType sc t = false := by
  obtain ⟨hkind, hlexeme⟩ := ht
  rw [startsType, hkind, hlexeme]
  cases w with
  | number | punct => rfl
  | name s =>
    obtain ⟨x, hx⟩ := Option.isSome_iff_exists.mp hw
    simp [kind, text, Token.Kind.isTypeWord, hx]
  | word => exact hw.elim

theorem Opening.startsType {ws : List Lexeme} (h : Opening sc ws) (hts : List.Forall₂ Spells ws ts)
    {rest : List Token} : startsType sc ((ts ++ rest).headD eof) = false := by
  obtain ⟨w, hw, hopens⟩ := h
  cases hts with
  | nil => cases hw
  | cons hspells _ =>
    cases hw
    exact startsType_of_opens hopens hspells

theorem Opening.kind_ne {ws : List Lexeme} (h : Opening sc ws) (hts : List.Forall₂ Spells ws ts)
    {rest : List Token} : ((ts ++ rest).headD eof).kind ≠ .punct .rightParen := by
  obtain ⟨w, hw, hopens⟩ := h
  cases hts with
  | nil => cases hw
  | cons hspells _ =>
    cases hw
    rw [List.cons_append, List.headD_cons, hspells.1]
    cases w <;> simp_all [kind, Opens]

/-- The words are read as `e` in form `k`, whatever follows that does not continue them. -/
structure Reads (sc : Scopes) (k : Nat) (ws : List Lexeme) (e : Expr) : Prop where
  opening : Opening sc ws
  -- sixteen units for each word pay for a descent through all forms, less one for each form spared
  parses : ∀ (n : Nat) (ts rest : List Token) (eof : Token) (p : Span) (nl : Nat),
    16 * ws.length ≤ n + k → List.Forall₂ Spells ws ts → Stops k (rest.headD eof).kind →
      Parses (form n (formAt k)) ⟨ts ++ rest, .ok eof, p, sc, nl⟩ rest e

/-- The words are a first operand and operators of strength `l` with further operands, which
make `e` so far. One more operator may follow. -/
structure Chain (sc : Scopes) (l : Nat) (ws : List Lexeme) (e : Expr) : Prop where
  opening : Opening sc ws
  steps : ∀ (n : Nat) (ts rest : List Token) (eof : Token) (p : Span) (nl : Nat),
    16 * ws.length ≤ n + (l + 4) → List.Forall₂ Spells ws ts →
      Stops (l + 4) (rest.headD eof).kind → ∃ a s₀ e' p',
        form n (.binary (l + 1)) ⟨ts ++ rest, .ok eof, p, sc, nl⟩ = .ok (a, s₀) ∧
        Steps (binaryForm.step (form n (.binary (l + 1))) l) a s₀ e' ⟨rest, .ok eof, p', sc, nl⟩ ∧
        e'.erase = e.erase

/-- The words are a primary expression and suffixes, which make `e` so far. Anything may
follow. -/
structure Starts (sc : Scopes) (ws : List Lexeme) (e : Expr) : Prop where
  opening : Opening sc ws
  steps : ∀ (n : Nat) (ts rest : List Token) (eof : Token) (p : Span) (nl : Nat),
    16 * ws.length ≤ n + 15 → List.Forall₂ Spells ws ts → ∃ a s₀ e' p',
      unaryForm (form n .unary) (form n .sequence) (form n .assignment)
          ⟨ts ++ rest, .ok eof, p, sc, nl⟩ =
        postfixForm (form n .sequence) (form n .assignment) ⟨ts ++ rest, .ok eof, p, sc, nl⟩ ∧
      primary (form n .sequence) ⟨ts ++ rest, .ok eof, p, sc, nl⟩ = .ok (a, s₀) ∧
      Steps (postfixStep (form n .sequence) (form n .assignment)) a s₀ e'
        ⟨rest, .ok eof, p', sc, nl⟩ ∧
      e'.erase = e.erase

section Climb

variable {ws : List Lexeme} {e : Expr} {l : Nat}

theorem step_of_stops {operand : Parser Expr} (h : binaryOp? l (ts.headD eof).kind = none) :
    binaryForm.step operand l e ⟨ts, .ok eof, p, sc, nl⟩ = .ok (none, ⟨ts, .ok eof, p, sc, nl⟩) :=
  bind_ok currentKind_eq (by simp only [h]; rfl)

theorem postfixStep_of_stops {nested argument : Parser Expr}
    (h : ∀ q ∈ suffixes, (ts.headD eof).kind ≠ .punct q) :
    postfixStep nested argument e ⟨ts, .ok eof, p, sc, nl⟩ =
      .ok (none, ⟨ts, .ok eof, p, sc, nl⟩) := by
  refine bind_ok currentKind_eq ?_
  generalize (ts.headD eof).kind = k at h ⊢
  split <;> first | rfl | exact absurd rfl (h _ (by decide))

theorem Reads.chain (h : Reads sc (l + 4) ws e) : Chain sc l ws e where
  opening := h.opening
  steps n ts rest eof p nl hn hts hrest := by
    obtain ⟨e', p', hrun, he⟩ := h.parses n ts rest eof p nl hn hts hrest
    exact ⟨e', _, e', p', hrun, .refl, he⟩

theorem Chain.reads (h : Chain sc l ws e) (hl : l < 10) : Reads sc (l + 3) ws e where
  opening := h.opening
  parses n ts rest eof p nl hn hts hrest := by
    have hpos := h.opening.pos
    obtain ⟨n, rfl⟩ : ∃ m, n = m + 1 := ⟨n - 1, by omega⟩
    obtain ⟨a, s₀, e', p', hfirst, hsteps, he⟩ :=
      h.steps n ts rest eof p nl (by omega) hts (hrest.mono (by omega))
    refine ⟨e', p', ?_, he⟩
    rw [formAt, form, if_pos (show l < binaryLevels from hl)]
    exact bind_ok hfirst (hsteps.extend_eq (step_of_stops (hrest.binary l (by omega))))

/-- An expression of one form, read to its end, is one of the next looser form. -/
theorem form_of_form_succ {k n : Nat} {s : State} (hk : k < 13)
    (h : form n (formAt (k + 1)) s = .ok (e, ⟨ts, .ok eof, p, sc, nl⟩))
    (hstop : Stops k (ts.headD eof).kind) :
    form (n + 1) (formAt k) s = .ok (e, ⟨ts, .ok eof, p, sc, nl⟩) := by
  match k with
  | 0 =>
    exact bind_ok (bind_ok h (bind_ok (Runs.many_eq
      (.nil (bind_ok (accept_of_ne (hstop.comma rfl)) rfl))) rfl)) rfl
  | 1 => exact bind_ok h (bind_ok currentKind_eq (by rw [hstop.assign (by omega)]; rfl))
  | 2 => exact bind_ok h (bind_ok (accept_of_ne (hstop.question (by omega))) rfl)
  | l + 3 =>
    rw [formAt, form, if_pos (show l < binaryLevels by rw [binaryLevels]; omega)]
    exact bind_ok h (Steps.refl.extend_eq (step_of_stops (hstop.binary l (by omega))))

theorem Reads.loosen {k : Nat} (h : Reads sc (k + 1) ws e) (hk : k < 13) : Reads sc k ws e where
  opening := h.opening
  parses n ts rest eof p nl hn hts hrest := by
    have hpos := h.opening.pos
    obtain ⟨n, rfl⟩ : ∃ m, n = m + 1 := ⟨n - 1, by omega⟩
    obtain ⟨e', p', hrun, he⟩ := h.parses n ts rest eof p nl (by omega) hts (hrest.mono (by omega))
    exact ⟨e', p', form_of_form_succ hk hrun hrest, he⟩

theorem Reads.mono {k k' : Nat} (h : Reads sc k' ws e) (hk : k ≤ k') (hk' : k' ≤ 13) :
    Reads sc k ws e := by
  obtain ⟨d, rfl⟩ := Nat.exists_eq_add_of_le hk
  induction d with
  | zero => exact h
  | succ d ih => exact ih (Reads.loosen (k := k + d) h (by omega)) (by omega) (by omega)

theorem refine_eq {x : Symbol} (h : sc.table.kind? x ≠ some .implicit) (k : Symbol.Kind) :
    sc.refine x k = sc := by
  have : sc.table.refine x k = sc.table := by
    unfold SymbolTable.refine
    unfold SymbolTable.kind? at h
    split
    · next i hi => rw [if_neg (by simpa [hi] using h)]
    · rfl
  rw [Scopes.refine, this]

theorem Starts.reads (h : Starts sc ws e)
    (hdeclared : ∀ x r, e.subscriptChain? = some (x, r) → sc.table.kind? x ≠ some .implicit) :
    Reads sc 13 ws e where
  opening := h.opening
  parses n ts rest eof p nl hn hts hrest := by
    have hpos := h.opening.pos
    obtain ⟨n, rfl⟩ : ∃ m, n = m + 2 := ⟨n - 2, by omega⟩
    obtain ⟨a, s₀, e', p', hform, hfirst, hsteps, he⟩ := h.steps n ts rest eof p nl (by omega) hts
    refine ⟨e', p', hform.trans (bind_ok hfirst
      (bind_ok (hsteps.extend_eq (postfixStep_of_stops hrest.suffix)) ?_)), he⟩
    -- The kind of the array is refined only if nobody declared it.
    cases hchain : e'.subscriptChain? with
    | none => rfl
    | some c =>
      rw [← Expr.subscriptChain?_erase, he, Expr.subscriptChain?_erase] at hchain
      have hrefine := refine_eq (hdeclared _ _ hchain) (.array c.2)
      show Except.ok (e', (⟨rest, .ok eof, p', sc.refine c.1 (.array c.2), nl⟩ : State)) = _
      rw [hrefine]

end Climb

theorem spells_append {us vs : List Lexeme} (h : List.Forall₂ Spells (us ++ vs) ts) :
    ∃ ts₁ ts₂, ts = ts₁ ++ ts₂ ∧ List.Forall₂ Spells us ts₁ ∧ List.Forall₂ Spells vs ts₂ := by
  induction us generalizing ts with
  | nil => exact ⟨[], ts, rfl, .nil, h⟩
  | cons u us ih =>
    obtain ⟨t, ts, ht, hts, rfl⟩ := List.forall₂_cons_left_iff.mp h
    obtain ⟨ts₁, ts₂, rfl, h₁, h₂⟩ := ih hts
    exact ⟨t :: ts₁, ts₂, rfl, .cons ht h₁, h₂⟩

theorem spells_cons {w : Lexeme} {ws : List Lexeme} (h : List.Forall₂ Spells (w :: ws) ts) :
    ∃ t us, ts = t :: us ∧ t.kind = w.kind ∧ t.lexeme = w.text ∧ List.Forall₂ Spells ws us := by
  cases h with
  | cons ht hus => exact ⟨_, _, rfl, ht.1, ht.2, hus⟩

theorem spells_singleton {w : Lexeme} (h : List.Forall₂ Spells [w] ts) :
    ∃ t, ts = [t] ∧ t.kind = w.kind ∧ t.lexeme = w.text := by
  obtain ⟨t, us, rfl, hkind, htext, hus⟩ := spells_cons h
  cases hus
  exact ⟨t, rfl, hkind, htext⟩

/-- A text laid out in words that are read as `e` is scanned and parsed to its end. -/
theorem Reads.expression_of_laid {ws : List Lexeme} {e : Expr} {text : String}
    (h : Reads sc 0 ws e) (hlaid : Token.Laid ws text.toList) (p : Span) (nl : Nat) :
    let scan := Token.scan text
    ∃ e' p', expression ⟨scan.tokens, scan.ending, p, sc, nl⟩ =
      .ok (e', ⟨[], scan.ending, p', sc, nl⟩) ∧ e'.erase = e.erase := by
  obtain ⟨ts, eof, hscan, heof, hts⟩ := Token.scan_of_laid hlaid
  have hfuel : 16 * ws.length ≤ 16 * (ts.length + 1) + 0 := by
    rw [hts.length_eq]
    omega
  obtain ⟨e', p', hrun, he'⟩ := h.parses _ ts [] eof p nl hfuel hts
    (stops_of_closer (Or.inr (Or.inr (Or.inr heof))))
  rw [List.append_nil] at hrun
  rw [hscan]
  exact ⟨e', p', bind_ok rfl hrun, he'⟩

end Grammar

end LoopLegality

import LoopLegality.Proofs.Forms

namespace LoopLegality

open Lexeme Grammar

namespace AssignOp

/-- The operators that a text can spell. No comparison and no logical operator is compound. -/
def punct? : AssignOp → Option Punct
  | plain => some .assign
  | compound .add => some .plusAssign
  | compound .sub => some .minusAssign
  | compound .mul => some .starAssign
  | compound .div => some .slashAssign
  | compound .mod => some .percentAssign
  | compound .bitAnd => some .ampAssign
  | compound .bitOr => some .pipeAssign
  | compound .bitXor => some .caretAssign
  | compound .shl => some .shiftLeftAssign
  | compound .shr => some .shiftRightAssign
  | compound _ => none

theorem assignOp?_of_punct? {op : AssignOp} {p : Punct} (h : op.punct? = some p) :
    assignOp? (.punct p) = some op := by
  unfold punct? at h
  split at h <;> cases h <;> rfl

end AssignOp

def typeWords (type : String) : List Keyword :=
  ((type.toList.takeWhile (· != '*')).splitOn ' ').filterMap fun cs =>
    Keyword.ofSpelling? (String.ofList cs)

def typeStars (type : String) : Nat := type.toList.count '*'

theorem Keyword.plain_spelling (k : Keyword) :
    ' ' ∉ k.spelling.toList ∧ '*' ∉ k.spelling.toList := by
  cases k <;> decide

theorem toList_typeText (ks : List Keyword) (n : Nat) :
    (typeText ks n).toList =
      [' '].intercalate (ks.map (·.spelling.toList)) ++ List.replicate n '*' := by
  have hstars : (String.join (List.replicate n "*")).toList = List.replicate n '*' := by
    induction n with
    | zero => rfl
    | succ n ih => simp_all [List.replicate_succ]
  rw [typeText, String.toList_append, hstars, String.toList_intercalate, List.map_map]
  rfl

theorem star_notMem_intercalate (ks : List Keyword) :
    '*' ∉ [' '].intercalate (ks.map (·.spelling.toList)) := by
  induction ks with
  | nil => simp
  | cons k ks ih =>
    cases ks with
    | nil => simpa using k.plain_spelling.2
    | cons k' ks =>
      rw [List.map_cons, List.map_cons, List.intercalate_cons_cons]
      simpa [k.plain_spelling.2] using ih

theorem typeWords_typeText {ks : List Keyword} (hks : ks ≠ []) (n : Nat) :
    typeWords (typeText ks n) = ks := by
  have hwords : (typeText ks n).toList.takeWhile (· != '*') =
      [' '].intercalate (ks.map (·.spelling.toList)) := by
    rw [toList_typeText, List.takeWhile_append_of_pos]
    · simp
    · intro c hc
      have hne : c ≠ '*' := fun h => star_notMem_intercalate ks (h ▸ hc)
      simpa using hne
  have hspaces : ∀ l ∈ ks.map (·.spelling.toList), ' ' ∉ l := by
    intro l hl
    obtain ⟨k, -, rfl⟩ := List.mem_map.mp hl
    exact k.plain_spelling.1
  rw [typeWords, hwords, List.splitOn_intercalate ' ' hspaces (by simpa using hks),
    List.filterMap_map]
  simp [Keyword.ofSpelling?_spelling]

theorem typeStars_typeText (ks : List Keyword) (n : Nat) : typeStars (typeText ks n) = n := by
  rw [typeStars, toList_typeText, List.count_append,
    List.count_eq_zero.mpr (star_notMem_intercalate ks), List.count_replicate_self, Nat.zero_add]

namespace Expr

/-- The form of the expression, numbered as the grammar numbers its forms. Past the last of
them, 14 is an expression that takes suffixes. -/
def level : Expr → Nat
  | comma _ _ => 0
  | assign _ _ _ _ => 1
  | conditional _ _ _ _ => 2
  | binary op _ _ _ => op.level + 3
  | unary op _ _ => if op.isPostfix then 14 else 13
  | cast _ _ _ | sizeOfType _ | sizeOf _ _ => 13
  | _ => 14

/-- The words of `e` in a place that asks for form `k`, in parentheses if `e` binds looser. -/
def enclose (k : Nat) (e : Expr) (ws : List Lexeme) : List Lexeme :=
  if e.level < k then .punct .leftParen :: (ws ++ [.punct .rightParen]) else ws

mutual

/-- The words of an expression, with the parentheses that precedence and grouping ask for.
The target of an assignment stands in a place of form `target`: by the precedence of the
operators that is 2, by the grammar of C it is 13. -/
def words (target : Nat) (names : Symbol → String) : Expr → List Lexeme
  | int n _ => [.number n.toNat]
  | ident x _ => [.name (names x)]
  | field o m a _ => enclose 14 o (o.words target names) ++
      [.punct (if a then .arrow else .dot), .name (names m)]
  | subscript b i _ => enclose 14 b (b.words target names) ++
      .punct .leftBracket :: (i.words target names ++ [.punct .rightBracket])
  | call f as _ => enclose 14 f (f.words target names) ++
      .punct .leftParen :: (joined (itemWords target names as) ++ [.punct .rightParen])
  | unary op e _ =>
    if op.isPostfix then enclose 14 e (e.words target names) ++ [.punct op.punct]
    else .punct op.punct :: enclose 13 e (e.words target names)
  | binary op l r _ => enclose (op.level + 3) l (l.words target names) ++
      .punct op.punct :: enclose (op.level + 4) r (r.words target names)
  | assign op l r _ => enclose target l (l.words target names) ++
      (op.punct?.toList.map .punct ++ enclose 1 r (r.words target names))
  | conditional c t f _ => enclose 3 c (c.words target names) ++
      .punct .question :: (t.words target names ++
        .punct .colon :: enclose 2 f (f.words target names))
  | cast type e _ => .punct .leftParen :: ((typeWords type).map .word ++
      List.replicate (typeStars type) (.punct .star) ++
        .punct .rightParen :: enclose 13 e (e.words target names))
  | comma es _ => joined (itemWords target names es)
  | float _ _ | char _ _ | str _ _ | sizeOfType _ | sizeOf _ _ => []

def itemWords (target : Nat) (names : Symbol → String) : List Expr → List (List Lexeme)
  | [] => []
  | e :: es => enclose 1 e (e.words target names) :: itemWords target names es

end

def print (target : Nat) (names : Symbol → String) (e : Expr) : String :=
  spaced (e.words target names)

mutual

/-- Literals are words that are not negative, names are spelled as the scopes know them, no
variable is one that nobody declared, and types are named by reserved words and stars. -/
def Printable (sc : Scopes) : Expr → Prop
  | int n _ => 0 ≤ n ∧ Word.Fits n
  | ident x _ => IsName (sc.table.name x) ∧ sc.lookup? (sc.table.name x) = some x ∧
      sc.table.kind? x ≠ some .implicit
  | field o m _ _ => o.Printable sc ∧ IsName (sc.table.name m) ∧
      sc.members.lookup (sc.table.name m) = some m
  | subscript b i _ => b.Printable sc ∧ i.Printable sc
  | call f as _ => f.Printable sc ∧ AllPrintable sc as
  | unary _ e _ => e.Printable sc
  | binary _ l r _ => l.Printable sc ∧ r.Printable sc
  | assign op l r _ => op.punct?.isSome ∧ l.Printable sc ∧ r.Printable sc
  | conditional c t f _ => c.Printable sc ∧ t.Printable sc ∧ f.Printable sc
  | cast type e _ => (∃ ks n, ks ≠ [] ∧ (∀ k ∈ ks, k.isTypeWord = true) ∧ type = typeText ks n) ∧
      e.Printable sc
  | comma es _ => 2 ≤ es.length ∧ AllPrintable sc es
  | float _ _ | char _ _ | str _ _ | sizeOfType _ | sizeOf _ _ => False

def AllPrintable (sc : Scopes) : List Expr → Prop
  | [] => True
  | e :: es => e.Printable sc ∧ AllPrintable sc es

end

section Spelling

variable {sc : Scopes} {target : Nat}

def Spelled (ws : List Lexeme) : Prop := ∀ w ∈ ws, w.WellSpelled

@[simp] theorem spelled_nil : Spelled [] := nofun

@[simp] theorem spelled_cons {w : Lexeme} {ws : List Lexeme} :
    Spelled (w :: ws) ↔ w.WellSpelled ∧ Spelled ws :=
  List.forall_mem_cons

@[simp] theorem spelled_append {us vs : List Lexeme} :
    Spelled (us ++ vs) ↔ Spelled us ∧ Spelled vs :=
  List.forall_mem_append

@[simp] theorem spelled_enclose {k : Nat} {e : Expr} {ws : List Lexeme} :
    Spelled (enclose k e ws) ↔ Spelled ws := by
  unfold enclose
  split <;> simp [WellSpelled]

@[simp] theorem spelled_joined {wss : List (List Lexeme)} :
    Spelled (joined wss) ↔ ∀ ws ∈ wss, Spelled ws := by
  cases wss with
  | nil => simp [joined]
  | cons ws wss =>
    rw [joined, spelled_append, List.forall_mem_cons]
    refine and_congr_right fun _ => ?_
    induction wss with
    | nil => simp
    | cons us wss ih => simp [ih, WellSpelled]

mutual

theorem spelled_words : (e : Expr) → e.Printable sc → Spelled (e.words target sc.table.name)
  | int n s, _ => by simp [words, WellSpelled]
  | ident x s, he => by simpa [words, WellSpelled] using he.1
  | field o m a s, he => by simp [words, WellSpelled, spelled_words o he.1, he.2.1]
  | subscript b i s, he => by simp [words, WellSpelled, spelled_words b he.1, spelled_words i he.2]
  | call f as s, he => by
    simpa [words, WellSpelled, spelled_words f he.1] using spelled_itemWords as he.2
  | unary op e s, he => by
    rw [words]
    split <;> simpa [WellSpelled] using spelled_words e he
  | binary op l r s, he => by simp [words, WellSpelled, spelled_words l he.1, spelled_words r he.2]
  | assign op l r s, he => by
    obtain ⟨p, hp⟩ := Option.isSome_iff_exists.mp he.1
    simp [words, WellSpelled, hp, spelled_words l he.2.1, spelled_words r he.2.2]
  | conditional c t f s, he => by
    simp [words, WellSpelled, spelled_words c he.1, spelled_words t he.2.1, spelled_words f he.2.2]
  | cast type e s, he => by
    have hwords : Spelled ((typeWords type).map .word) := by simp [Spelled, WellSpelled]
    have hstars : Spelled (List.replicate (typeStars type) (.punct .star)) := by
      simp [Spelled, WellSpelled]
    simp [words, WellSpelled, hwords, hstars, spelled_words e he.2]
  | comma es s, he => by simpa [words] using spelled_itemWords es he.2

theorem spelled_itemWords : (es : List Expr) → AllPrintable sc es →
    ∀ ws ∈ itemWords target sc.table.name es, Spelled ws
  | [], _ => nofun
  | e :: es, he => by
    simpa [itemWords, spelled_words e he.1] using spelled_itemWords es he.2

end

end Spelling

theorem Printable.declared {sc : Scopes} {e : Expr} (he : e.Printable sc) {x : Symbol} {r : Nat}
    (h : e.subscriptChain? = some (x, r)) : sc.table.kind? x ≠ some .implicit := by
  induction e using subscriptChain?.induct generalizing r with
  | case1 i s y z =>
    cases h
    exact he.1.2.2
  | case2 b i s hb ih =>
    rw [subscriptChain?.eq_2 b i s hb] at h
    obtain ⟨⟨y, m⟩, hy, hxy⟩ := Option.map_eq_some_iff.mp h
    cases hxy
    exact ih he.1 hy
  | case3 e hne =>
    cases e with
    | subscript b i s => exact absurd rfl (hne b i s)
    | _ => cases h

end Expr

namespace Grammar

/-- How the words of an expression are read: in its own form always, as a chain if it is an
operator with two operands, and before suffixes if it takes them. -/
structure Sound (sc : Scopes) (ws : List Lexeme) (e : Expr) : Prop where
  reads : Reads sc (min e.level 13) ws e
  chain : ∀ l < 10, e.level = l + 3 → Chain sc l ws e
  starts : 13 < e.level → Starts sc ws e

section Sound

variable {sc : Scopes} {ws : List Lexeme} {e : Expr} {k : Nat}

theorem sound_of_reads (h : Reads sc k ws e) (hlevel : e.level = k) (hk : k < 3 ∨ k = 13) :
    Sound sc ws e := by
  refine ⟨?_, fun l hl hk => by omega, fun h => by omega⟩
  rw [hlevel, show min k 13 = k by omega]
  exact h

theorem sound_of_chain {l : Nat} (h : Chain sc l ws e) (hlevel : e.level = l + 3) (hl : l < 10) :
    Sound sc ws e := by
  refine ⟨?_, fun l' hl' hk => ?_, fun h => by omega⟩
  · rw [hlevel, show min (l + 3) 13 = l + 3 by omega]
    exact h.reads hl
  · obtain rfl : l' = l := by omega
    exact h

theorem sound_of_starts (h : Starts sc ws e) (hlevel : e.level = 14) (he : e.Printable sc) :
    Sound sc ws e := by
  refine ⟨?_, fun l hl hk => by omega, fun _ => h⟩
  rw [hlevel]
  exact h.reads fun x r hx => he.declared hx

theorem Sound.reads_zero (h : Sound sc ws e) : Reads sc 0 ws e :=
  h.reads.mono (Nat.zero_le _) (Nat.min_le_right _ _)

theorem Sound.reads_enclose (h : Sound sc ws e) (he : e.Printable sc) (hk : k ≤ 13) :
    Reads sc k (Expr.enclose k e ws) e := by
  unfold Expr.enclose
  split
  · exact (h.reads_zero.paren.reads fun x r hx => he.declared hx).mono hk (Nat.le_refl _)
  · exact h.reads.mono (by omega) (Nat.min_le_right _ _)

theorem Sound.starts_enclose (h : Sound sc ws e) : Starts sc (Expr.enclose 14 e ws) e := by
  unfold Expr.enclose
  split
  · exact h.reads_zero.paren
  · exact h.starts (by omega)

theorem Sound.chain_enclose {l : Nat} (h : Sound sc ws e) (he : e.Printable sc) (hl : l < 10) :
    Chain sc l (Expr.enclose (l + 3) e ws) e := by
  -- A left operand of the same strength goes on as a chain; another stands as on the right.
  by_cases hlevel : e.level = l + 3
  · rw [Expr.enclose, if_neg (by omega)]
    exact h.chain l hl hlevel
  · have hsame : Expr.enclose (l + 3) e ws = Expr.enclose (l + 4) e ws := by
      unfold Expr.enclose
      exact if_congr (by omega) rfl rfl
    rw [hsame]
    exact (h.reads_enclose he (by omega)).chain

end Sound

mutual

theorem sound_words {sc : Scopes} {target : Nat} (hlow : 2 ≤ target) (hhigh : target ≤ 13) :
    (e : Expr) → e.Printable sc → Sound sc (e.words target sc.table.name) e
  | .int n s, he => by
    obtain ⟨m, rfl⟩ := Int.eq_ofNat_of_zero_le he.1
    exact sound_of_starts (starts_number he.2) rfl he
  | .ident x s, he => sound_of_starts (starts_name he.2.1) rfl he
  | .field o m a s, he =>
    sound_of_starts ((sound_words hlow hhigh o he.1).starts_enclose.field he.2.2) rfl he
  | .subscript b i s, he =>
    sound_of_starts ((sound_words hlow hhigh b he.1).starts_enclose.subscript
      (sound_words hlow hhigh i he.2).reads_zero) rfl he
  | .call f as s, he =>
    sound_of_starts ((sound_words hlow hhigh f he.1).starts_enclose.call
      (reads_itemWords hlow hhigh as he.2)) rfl he
  | .unary op e s, he => by
    have ih := sound_words hlow hhigh e he
    rw [Expr.words]
    split
    · next hop =>
      exact sound_of_starts (ih.starts_enclose.postOp hop) (by simp [Expr.level, hop]) he
    · next hop =>
      rw [Bool.not_eq_true] at hop
      exact sound_of_reads (reads_unary hop (ih.reads_enclose he (by omega)))
        (by simp [Expr.level, hop]) (by omega)
  | .binary op l r s, he => by
    have hl := op.level_lt
    exact sound_of_chain (((sound_words hlow hhigh l he.1).chain_enclose he.1 hl).snoc
      ((sound_words hlow hhigh r he.2).reads_enclose he.2 (by omega))) rfl hl
  | .assign op l r s, he => by
    obtain ⟨p, hp⟩ := Option.isSome_iff_exists.mp he.1
    have hl := (sound_words hlow hhigh l he.2.1).reads_enclose he.2.1 hhigh
    have hr := (sound_words hlow hhigh r he.2.2).reads_enclose (k := 1) he.2.2 (by omega)
    rw [Expr.words, hp]
    exact sound_of_reads (reads_assign (AssignOp.assignOp?_of_punct? hp) (hl.mono hlow hhigh) hr)
      rfl (by omega)
  | .conditional c t f s, he => by
    have hc := (sound_words hlow hhigh c he.1).reads_enclose (k := 3) he.1 (by omega)
    have ht := (sound_words hlow hhigh t he.2.1).reads_zero
    have hf := (sound_words hlow hhigh f he.2.2).reads_enclose (k := 2) he.2.2 (by omega)
    exact sound_of_reads (reads_conditional hc ht hf) rfl (by omega)
  | .cast type e s, ⟨⟨ks, n, hne, hks, htype⟩, he⟩ => by
    have ih := (sound_words hlow hhigh e he).reads_enclose (k := 13) he (by omega)
    rw [Expr.words, htype, typeWords_typeText hne, typeStars_typeText]
    exact sound_of_reads (reads_cast hne hks ih) rfl (by omega)
  | .comma es s, he => by
    have ih := reads_itemWords hlow hhigh es he.2
    match es, he.1, ih with
    | e :: f :: es, _, .cons he (.cons hf hes) =>
      exact sound_of_reads (reads_comma he hf hes) rfl (by omega)

theorem reads_itemWords {sc : Scopes} {target : Nat} (hlow : 2 ≤ target) (hhigh : target ≤ 13) :
    (es : List Expr) → Expr.AllPrintable sc es →
      List.Forall₂ (Reads sc 1) (Expr.itemWords target sc.table.name es) es
  | [], _ => .nil
  | e :: es, he => .cons ((sound_words hlow hhigh e he.1).reads_enclose he.1 (by omega))
      (reads_itemWords hlow hhigh es he.2)

end

/-- The printed text of an expression is scanned and parsed to the end, and what it is parsed
to is the expression, with places of its own. -/
theorem expression_print {sc : Scopes} {e : Expr} (he : e.Printable sc) {target : Nat}
    (hlow : 2 ≤ target) (hhigh : target ≤ 13) (p : Span) (nl : Nat) :
    let scan := Token.scan (e.print target sc.table.name)
    ∃ e' p', expression ⟨scan.tokens, scan.ending, p, sc, nl⟩ =
      .ok (e', ⟨[], scan.ending, p', sc, nl⟩) ∧ e'.erase = e.erase := by
  have hspelled : Expr.Spelled (e.words target sc.table.name) := Expr.spelled_words e he
  have hreads : Reads sc 0 (e.words target sc.table.name) e :=
    (sound_words hlow hhigh e he).reads_zero
  exact hreads.expression_of_laid (Token.laid_spaced hspelled) p nl

/-- A cast takes the sum only in parentheses, and the product takes the cast without them. -/
theorem expression_print_cast :
    let sc := (Scopes.empty.declare "x" .scalar .none).2
    let x : Expr := .ident 0 .none
    let sum : Expr := .binary .add x (.int 1 .none) .none
    let e : Expr := .assign .plain x
      (.binary .mul (.cast "int*" sum .none) (.unary .neg x .none) .none) .none
    let scan := Token.scan "x = ( int * ) ( x + 1 ) * - x"
    ∃ e' p', expression ⟨scan.tokens, scan.ending, .none, sc, 0⟩ =
      .ok (e', ⟨[], scan.ending, p', sc, 0⟩) ∧ e'.erase = e := by
  intro sc x sum e scan
  have hname : IsName "x" := ⟨⟨'x', [], rfl, by decide, nofun⟩, rfl⟩
  have hx : x.Printable sc := ⟨hname, rfl, nofun⟩
  have hsum : sum.Printable sc := ⟨hx, by decide, by decide⟩
  have htype : ∃ ks n, ks ≠ [] ∧ (∀ k ∈ ks, k.isTypeWord = true) ∧ "int*" = typeText ks n :=
    ⟨[.kwInt], 1, by decide, by decide, by decide⟩
  have he : e.Printable sc := ⟨rfl, hx, ⟨htype, hsum⟩, hx⟩
  have htext : e.print 2 sc.table.name = "x = ( int * ) ( x + 1 ) * - x" := by decide +kernel
  have hread := expression_print he (Nat.le_refl 2) (by decide) .none 0
  rw [htext] at hread
  exact hread

end Grammar

end LoopLegality

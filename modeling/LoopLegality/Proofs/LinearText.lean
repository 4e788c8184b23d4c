import LoopLegality.Proofs.ErasedAnalysis
import LoopLegality.Proofs.Forms
import LoopLegality.Proofs.NormalForm

namespace LoopLegality

open Lexeme Grammar

namespace Grammar

variable {α β : Type} {sc : Scopes} {ws us : List Lexeme} {e : Expr} {k l : Nat}

def Fails (m : Parser α) (s : State) : Prop := ∃ err, m s = .error err

theorem Fails.bind {m : Parser α} {s : State} (h : Fails m s) (f : α → Parser β) :
    Fails (m >>= f) s := by
  obtain ⟨err, h⟩ := h
  refine ⟨err, ?_⟩
  show StateT.bind m f s = _
  rw [StateT.bind, h]
  rfl

theorem fails_bind {m : Parser α} {f : α → Parser β} {s s' : State} {a : α}
    (hm : m s = .ok (a, s')) (hf : Fails (f a) s') : Fails (m >>= f) s := by
  obtain ⟨err, hf⟩ := hf
  exact ⟨err, (bind_eq hm).trans hf⟩

theorem fails_fail {t eof : Token} {ts : List Token} {p : Span} {nl : Nat}
    (cause : ParseError.Cause) : Fails (fail cause : Parser α) ⟨t :: ts, .ok eof, p, sc, nl⟩ :=
  fails_bind current_cons ⟨_, rfl⟩

theorem Steps.fails_extend {step : α → Parser (Option α)} {a b : α} {s s' : State}
    (h : Steps step a s b s') (hb : Fails (step b) s') : Fails (extend step a) s := by
  obtain ⟨k, hk, hrun⟩ := h.extendStep_eq
  refine fails_bind (a := s.tokens.length) rfl ?_
  obtain ⟨err, hb⟩ := hb.bind _
  refine ⟨err, ?_⟩
  rw [show s.tokens.length + 1 = s.tokens.length - k + 1 + k by omega, hrun]
  exact hb

theorem fails_form {t eof : Token} {ts : List Token} {p : Span} {nl : Nat}
    (hkind : t.kind = .integer) (hbad : Literal.integer? t.lexeme = none) (n : Nat) (f : Form) :
    Fails (form n f) ⟨t :: ts, .ok eof, p, sc, nl⟩ := by
  induction n generalizing f with
  | zero => exact fails_fail _
  | succ n ih =>
    cases f with
    | sequence => exact ((ih .assignment).bind _).bind _
    | assignment => exact (ih .conditional).bind _
    | conditional => exact (ih (.binary 0)).bind _
    | binary level =>
      rw [form]
      split
      · exact (ih (.binary (level + 1))).bind _
      · exact ih .unary
    | unary =>
      have hprimary (nested : Parser Expr) :
          Fails (primary nested) ⟨t :: ts, .ok eof, p, sc, nl⟩ := by
        refine fails_bind (currentKind_of_eq hkind) (fails_bind current_cons ?_)
        rw [hbad]
        exact fails_fail _
      rw [Fails, form, unaryForm_of_ne (by rw [hkind]; rfl) (by simp [hkind]) (by simp [hkind])]
      exact (hprimary (form n .sequence)).bind _

/-- The words are an error in form `k`, whatever follows. -/
def Rejects (sc : Scopes) (k : Nat) (ws : List Lexeme) : Prop :=
  ∀ (n : Nat) (ts rest : List Token) (eof : Token) (p : Span) (nl : Nat),
    16 * ws.length ≤ n + k → List.Forall₂ Spells ws ts →
      Fails (form n (formAt k)) ⟨ts ++ rest, .ok eof, p, sc, nl⟩

theorem rejects_number {n : Nat} (hn : ¬ Word.Fits n) (us : List Lexeme) :
    Rejects sc k (.number n :: us) := by
  intro m ts rest eof p nl _ hts
  obtain ⟨t, ts, rfl, hkind, htext, -⟩ := spells_cons hts
  apply fails_form hkind
  rw [htext]
  exact (Literal.integer?_toString_eq n).trans (if_neg hn)

theorem Rejects.append (h : Rejects sc k ws) (us : List Lexeme) : Rejects sc k (ws ++ us) := by
  intro n ts rest eof p nl hn hts
  obtain ⟨ts, vs, rfl, hws, -⟩ := spells_append hts
  rw [List.length_append] at hn
  rw [List.append_assoc]
  exact h n ts (vs ++ rest) eof p nl (by omega) hws

theorem Rejects.loosen (h : Rejects sc (k + 1) ws) (hws : ws ≠ []) (hk : k < 13) :
    Rejects sc k ws := by
  intro n ts rest eof p nl hn hts
  have hpos := List.length_pos_iff.mpr hws
  obtain ⟨n, rfl⟩ : ∃ m, n = m + 1 := ⟨n - 1, by omega⟩
  have hfails := h n ts rest eof p nl (by omega) hts
  match k with
  | 0 => exact (hfails.bind _).bind _
  | 1 => exact hfails.bind _
  | 2 => exact hfails.bind _
  | l + 3 =>
    rw [formAt, form, if_pos (show l < binaryLevels by rw [binaryLevels]; omega)]
    exact hfails.bind _

theorem Rejects.mono {k' : Nat} (h : Rejects sc k' ws) (hws : ws ≠ []) (hk : k ≤ k')
    (hk' : k' ≤ 13) : Rejects sc k ws := by
  obtain ⟨d, rfl⟩ := Nat.exists_eq_add_of_le hk
  induction d with
  | zero => exact h
  | succ d ih => exact ih (Rejects.loosen (k := k + d) h hws (by omega)) (by omega) (by omega)

theorem Rejects.neg (h : Rejects sc 13 ws) (hws : ws ≠ []) :
    Rejects sc 13 (.punct .minus :: ws) := by
  intro n ts rest eof p nl hn hts
  obtain ⟨t, us, rfl, hpunct, -, hus⟩ := spells_cons hts
  have hpos := List.length_pos_iff.mpr hws
  rw [List.length_cons] at hn
  obtain ⟨n, rfl⟩ : ∃ m, n = m + 2 := ⟨n - 2, by omega⟩
  refine fails_bind current_cons ?_
  rw [hpunct]
  exact fails_bind advance_cons ((h (n + 1) us rest eof t.span nl (by omega) hus).bind _)

theorem Chain.rejects {op : BinaryOp} (he : Chain sc op.level ws e)
    (hus : Rejects sc (op.level + 4) us) :
    Rejects sc (op.level + 3) (ws ++ .punct op.punct :: us) := by
  intro n ts rest eof p nl hn hts
  obtain ⟨ts, vs, rfl, hfirst, hvs⟩ := spells_append hts
  obtain ⟨t, us, rfl, hpunct, -, hus'⟩ := spells_cons hvs
  rw [List.length_append, List.length_cons] at hn
  have hlevel := op.level_lt
  obtain ⟨n, rfl⟩ : ∃ m, n = m + 1 := ⟨n - 1, by omega⟩
  have hstop : Stops (op.level + 4) t.kind := hpunct ▸ stops_binary op
  have hop : binaryOp? op.level t.kind = some op := binaryOp?_eq_some.mpr ⟨hpunct, rfl⟩
  obtain ⟨a, s₀, b, q, hstart, hsteps, -⟩ :=
    he.steps n ts (t :: us ++ rest) eof p nl (by omega) hfirst hstop
  rw [List.append_assoc, formAt, form, if_pos (show op.level < binaryLevels from hlevel)]
  refine fails_bind hstart (hsteps.fails_extend (fails_bind (currentKind_of_eq rfl) ?_))
  rw [hop]
  exact fails_bind advance_cons ((hus n us rest eof t.span nl (by omega) hus').bind _)

theorem Rejects.expression_of_laid {text : String} (h : Rejects sc 0 ws)
    (hlaid : Token.Laid ws text.toList) (p : Span) (nl : Nat) :
    let scan := Token.scan text
    Fails expression ⟨scan.tokens, scan.ending, p, sc, nl⟩ := by
  obtain ⟨ts, eof, hscan, -, hts⟩ := Token.scan_of_laid hlaid
  have hfuel : 16 * ws.length ≤ 16 * (ts.length + 1) + 0 := by
    rw [hts.length_eq]
    omega
  have hfails := h _ ts [] eof p nl hfuel hts
  rw [List.append_nil] at hfails
  rw [hscan]
  exact fails_bind rfl hfails

end Grammar

namespace Linear

/-- The constant, or the coefficient of a binding. -/
def part (l : Linear) : Option Symbol → Int
  | none => l.constant
  | some x => l.coefficient x

section Parts

variable {l m : Linear} {k : Int}

theorem ext_part (h : ∀ o, l.part o = m.part o) : l = m :=
  ext_coefficient (h none) fun x => h (some x)

theorem exists_add? (h : ∀ o, Word.Fits (l.part o + m.part o)) :
    ∃ s, l.add? m = some s ∧ ∀ o, s.part o = l.part o + m.part o := by
  have hsome : (l.add? m).isSome := isSome_add?.mpr ⟨h none, fun x _ => h (some x)⟩
  obtain ⟨s, hs⟩ := Option.isSome_iff_exists.mp hsome
  obtain ⟨hconstant, hcoefficient⟩ := terms_add? hs
  refine ⟨s, hs, fun o => ?_⟩
  cases o with
  | none => exact hconstant
  | some x => exact hcoefficient x

theorem exists_scale? (h : ∀ o, Word.Fits (l.part o * k)) :
    ∃ s, l.scale? k = some s ∧ ∀ o, s.part o = l.part o * k := by
  have hsome : (l.scale? k).isSome := isSome_scale?.mpr ⟨h none, fun x => h (some x)⟩
  obtain ⟨s, hs⟩ := Option.isSome_iff_exists.mp hsome
  obtain ⟨hconstant, hcoefficient⟩ := terms_scale? hs
  refine ⟨s, hs, fun o => ?_⟩
  cases o with
  | none => exact hconstant
  | some x => exact hcoefficient x

end Parts

/-- A number, or a multiple of a binding. -/
structure Summand where
  symbol? : Option Symbol
  number : Int

namespace Summand

variable {s : Summand}

def form (s : Summand) : Linear :=
  match s.symbol? with
  | none => const s.number
  | some x => term x s.number

def magnitude (s : Summand) : Summand := ⟨s.symbol?, s.number.natAbs⟩

theorem part_form (s : Summand) (o : Option Symbol) :
    s.form.part o = if o = s.symbol? then s.number else 0 := by
  obtain ⟨x?, n⟩ := s
  cases x? with
  | none => cases o <;> rfl
  | some x =>
    cases o with
    | none => exact constant_set zero x n
    | some y =>
      show (term x n).coefficient y = _
      rw [coefficient_term]
      by_cases hy : y = x
      · simp [hy]
      · simp [hy]

theorem fits_part_form (hs : Word.Fits s.number) (o : Option Symbol) :
    Word.Fits (s.form.part o) := by
  rw [part_form]
  split
  · exact hs
  · exact Word.fits_zero

theorem scale?_form {k : Int} (hk : Word.Fits (s.number * k)) :
    s.form.scale? k = some (form ⟨s.symbol?, s.number * k⟩) := by
  obtain ⟨m, hm, hparts⟩ : ∃ m, s.form.scale? k = some m ∧ ∀ o, m.part o = s.form.part o * k := by
    apply exists_scale?
    intro o
    rw [part_form]
    split
    · exact hk
    · rw [zero_mul]
      exact Word.fits_zero
  rw [hm]
  congr 1
  apply ext_part
  intro o
  rw [hparts, part_form, part_form]
  split
  · rfl
  · exact zero_mul k

theorem neg?_magnitude (hs : Word.Fits s.number) (hneg : s.number < 0) :
    s.magnitude.form.neg? = some s.form := by
  have hnumber : s.magnitude.number * -1 = s.number := by
    show (s.number.natAbs : Int) * -1 = s.number
    omega
  rw [neg?, scale?_form (by rwa [hnumber]), hnumber]
  rfl

def words (name : Symbol → String) (s : Summand) : List Lexeme :=
  match s.symbol? with
  | none => [.number s.number.natAbs]
  | some x =>
    if s.number.natAbs = 1 then [.name (name x)]
    else [.number s.number.natAbs, .punct .star, .name (name x)]

/-- The expression of a summand whose factor is spelled by `factor`. -/
def exprWith (factor : Expr → Expr) (s : Summand) : Expr :=
  match s.symbol? with
  | none => factor (.int s.number.natAbs .none)
  | some x =>
    if s.number.natAbs = 1 then factor (.ident x .none)
    else .binary .mul (factor (.int s.number.natAbs .none)) (.ident x .none) .none

def sign (s : Summand) : Punct := if s.number < 0 then .minus else .plus

def op (s : Summand) : BinaryOp := if s.number < 0 then .sub else .add

def firstWords (name : Symbol → String) (s : Summand) : List Lexeme :=
  if s.number < 0 then .punct .minus :: s.words name else s.words name

def firstExpr (s : Summand) : Expr :=
  if s.number < 0 then s.exprWith fun e => .unary .neg e .none else s.exprWith id

section Values

theorem scale?_const {n k : Int} (h : Word.Fits (n * k)) :
    (const n).scale? k = some (const (n * k)) :=
  scale?_form (s := ⟨none, n⟩) h

theorem scale?_var (x : Symbol) {k : Int} (h : Word.Fits k) :
    (var x).scale? k = some (term x k) := by
  have hx := scale?_form (s := ⟨some x, 1⟩) (k := k) (by rwa [one_mul])
  rwa [one_mul] at hx

/-- A factor that gives its operand the sign `σ` gives it to the summand. -/
theorem ofExpr?_exprWith (factor : Expr → Expr) (σ : Int)
    (hint : ofExpr? (factor (.int s.number.natAbs .none)) = some (const (s.number.natAbs * σ)))
    (hident : ∀ x, ofExpr? (factor (.ident x .none)) = some (term x σ))
    (hs : Word.Fits (s.number.natAbs * σ)) :
    ofExpr? (s.exprWith factor) = some (form ⟨s.symbol?, s.number.natAbs * σ⟩) := by
  unfold exprWith
  cases s.symbol? with
  | none => exact hint
  | some x =>
    dsimp only
    split
    · next hone =>
      rw [hident, hone, Nat.cast_one, one_mul]
      rfl
    · simp only [ofExpr?, hint]
      exact scale?_var x hs

theorem ofExpr?_magnitude (hs : Word.Fits s.number.natAbs) :
    ofExpr? (s.exprWith id) = some s.magnitude.form := by
  have hint : ofExpr? (.int s.number.natAbs .none) = some (const (s.number.natAbs * 1)) := by
    rw [mul_one]
    rfl
  have h := ofExpr?_exprWith id 1 hint (fun _ => rfl) (by rwa [mul_one])
  rwa [mul_one] at h

theorem ofExpr?_first (hs : Word.Fits s.number) (habs : Word.Fits s.number.natAbs) :
    ofExpr? s.firstExpr = some s.form := by
  unfold firstExpr
  split
  · next hneg =>
    have hnumber : (s.number.natAbs : Int) * -1 = s.number := by omega
    have hfits : Word.Fits ((s.number.natAbs : Int) * -1) := by rwa [hnumber]
    have hident (x : Symbol) : (var x).neg? = some (term x (-1)) := scale?_var x (by decide)
    have h := ofExpr?_exprWith (fun e => .unary .neg e .none) (-1) (scale?_const hfits) hident hfits
    rwa [hnumber] at h
  · next hpos =>
    have hnumber : (s.number.natAbs : Int) = s.number := by omega
    rw [ofExpr?_magnitude habs, magnitude, hnumber]

theorem ofExpr?_snoc {e : Expr} {m : Linear} (hs : Word.Fits s.number)
    (habs : Word.Fits s.number.natAbs) (he : ofExpr? e = some m)
    (hm : ∀ o, Word.Fits (m.part o)) (hfree : m.part s.symbol? = 0) :
    ∃ m', ofExpr? (.binary s.op e (s.exprWith id) .none) = some m' ∧
      ∀ o, m'.part o = if o = s.symbol? then s.number else m.part o := by
  have hsum (o : Option Symbol) :
      m.part o + s.form.part o = if o = s.symbol? then s.number else m.part o := by
    rw [part_form]
    split
    · next ho => rw [ho, hfree, zero_add]
    · exact add_zero _
  obtain ⟨m', hadd, hparts⟩ : ∃ m', m.add? s.form = some m' ∧
      ∀ o, m'.part o = m.part o + s.form.part o := by
    apply exists_add?
    intro o
    rw [hsum]
    split
    · exact hs
    · exact hm o
  refine ⟨m', ?_, fun o => (hparts o).trans (hsum o)⟩
  unfold op
  split
  · next hneg =>
    simp only [ofExpr?, he, ofExpr?_magnitude habs]
    show s.magnitude.form.neg?.bind m.add? = some m'
    rw [neg?_magnitude hs hneg, Option.bind_some, hadd]
  · next hpos =>
    have hnumber : (s.number.natAbs : Int) = s.number := by omega
    simp only [ofExpr?, he, ofExpr?_magnitude habs]
    show m.add? s.magnitude.form = some m'
    rw [magnitude, hnumber, hadd]

end Values

section Readings

variable {sc : Scopes} {ws : List Lexeme} {e : Expr}

def Visible (sc : Scopes) (s : Summand) : Prop :=
  ∀ x ∈ s.symbol?, sc.lookup? (sc.table.name x) = some x

theorem reads_int {n : Nat} (hn : Word.Fits n) : Reads sc 13 [.number n] (.int n .none) :=
  (starts_number hn).reads fun _ _ h => by cases h

theorem reads_ident {x : Symbol} (hx : sc.lookup? (sc.table.name x) = some x) :
    Reads sc 13 [.name (sc.table.name x)] (.ident x .none) :=
  (starts_name hx).reads fun _ _ h => by cases h

theorem reads_exprWith (signs : List Lexeme) {factor : Expr → Expr} (hs : Visible sc s)
    (habs : Word.Fits s.number.natAbs)
    (hfactor : ∀ {ws e}, Reads sc 13 ws e → Reads sc 13 (signs ++ ws) (factor e)) :
    Reads sc 12 (signs ++ s.words sc.table.name) (s.exprWith factor) := by
  unfold words exprWith
  have hnumber := hfactor (reads_int habs)
  cases hx : s.symbol? with
  | none => exact hnumber.mono (by omega) (by omega)
  | some x =>
    have hname := reads_ident (hs x hx)
    dsimp only
    split
    · exact (hfactor hname).mono (by omega) (by omega)
    · have hfirst : Chain sc BinaryOp.mul.level _ _ := hnumber.chain
      have hchain : Chain sc BinaryOp.mul.level _ (.binary .mul _ _ .none) := hfirst.snoc hname
      rw [List.append_assoc] at hchain
      exact hchain.reads (by decide)

theorem reads_first (hs : Visible sc s) (habs : Word.Fits s.number.natAbs) :
    Reads sc 12 (s.firstWords sc.table.name) s.firstExpr := by
  unfold firstWords firstExpr
  split
  · have hneg {ws : List Lexeme} {e : Expr} (h : Reads sc 13 ws e) :
        Reads sc 13 (.punct UnaryOp.neg.punct :: ws) (.unary .neg e .none) := reads_unary rfl h
    exact reads_exprWith [.punct .minus] hs habs hneg
  · exact reads_exprWith [] hs habs fun h => h

theorem chain_snoc (h : Chain sc 8 ws e) (hs : Visible sc s) (habs : Word.Fits s.number.natAbs) :
    Chain sc 8 (ws ++ .punct s.sign :: s.words sc.table.name)
      (.binary s.op e (s.exprWith id) .none) := by
  have hterm : Reads sc 12 (s.words sc.table.name) (s.exprWith id) :=
    reads_exprWith [] hs habs fun h => h
  unfold op sign
  split
  · have h : Chain sc BinaryOp.sub.level ws e := h
    exact h.snoc hterm
  · have h : Chain sc BinaryOp.add.level ws e := h
    exact h.snoc hterm

theorem words_ne_nil (name : Symbol → String) (s : Summand) : s.words name ≠ [] := by
  unfold words
  split
  · simp
  · split <;> simp

theorem firstWords_ne_nil (name : Symbol → String) (s : Summand) : s.firstWords name ≠ [] := by
  unfold firstWords
  split
  · simp
  · exact words_ne_nil name s

/-- A number that is no word is spelled out, and no unit factor. -/
theorem rejects_words (k : Nat) (habs : ¬ Word.Fits s.number.natAbs) :
    Rejects sc k (s.words sc.table.name) := by
  unfold words
  cases s.symbol? with
  | none => exact rejects_number habs []
  | some x =>
    have hone : s.number.natAbs ≠ 1 := by
      intro h
      rw [h] at habs
      exact habs (by decide)
    dsimp only
    rw [if_neg hone]
    exact rejects_number habs _

theorem rejects_first (habs : ¬ Word.Fits s.number.natAbs) :
    Rejects sc 11 (s.firstWords sc.table.name) := by
  unfold firstWords
  split
  · have hneg : Rejects sc 13 (.punct .minus :: s.words sc.table.name) :=
      (rejects_words 13 habs).neg (words_ne_nil _ s)
    exact hneg.mono (by simp) (by omega) (by omega)
  · exact rejects_words 11 habs

theorem chain_rejects (h : Chain sc 8 ws e) (habs : ¬ Word.Fits s.number.natAbs) :
    Rejects sc 11 (ws ++ .punct s.sign :: s.words sc.table.name) := by
  have hterm : Rejects sc 12 (s.words sc.table.name) := rejects_words 12 habs
  unfold sign
  split
  · have h : Chain sc BinaryOp.sub.level ws e := h
    exact h.rejects hterm
  · have h : Chain sc BinaryOp.add.level ws e := h
    exact h.rejects hterm

end Readings

section Text

variable {name : Symbol → String} {ws : List Lexeme} {rest : List Char}

def text (name : Symbol → String) (s : Summand) : String :=
  match s.symbol? with
  | none => toString s.number.natAbs
  | some x => termText name (x, s.number)

def Named (name : Symbol → String) (s : Summand) : Prop := ∀ x ∈ s.symbol?, IsName (name x)

theorem toList_termText (name : Symbol → String) (x : Symbol) (n : Int) :
    (termText name (x, n)).toList = if n.natAbs = 1 then (name x).toList
      else (toString n.natAbs).toList ++ '*' :: (name x).toList := by
  unfold termText
  split
  · rfl
  · simp
    rfl

theorem apart_punct {p : Punct} (hp : p = .star ∨ p = .minus) {c : Char}
    (hc : Text.isIdentRest c = true) : Token.Apart (.punct p) (c :: rest) := by
  have hne (d : Char) (hd : Text.isIdentRest d = false) : ¬ d = c := (ne_of_holds hc hd).symm
  intro lineStart
  obtain rfl | rfl := hp
  · have hlongest : Punct.longest? ('*' :: c :: rest) = some .star := by
      simp [Punct.longest?, Punct.all, Punct.chars, hne '=' (by decide)]
    refine ⟨'*', [], rfl, ?_⟩
    rw [Token.chunk_of_plain rfl (by decide) (by decide) (by decide), Token.lexemeChunk.eq_def]
    simp only [List.nil_append, hlongest]
    rfl
  · have hlongest : Punct.longest? ('-' :: c :: rest) = some .minus := by
      simp [Punct.longest?, Punct.all, Punct.chars, hne '=' (by decide), hne '-' (by decide),
        hne '>' (by decide)]
    refine ⟨'-', [], rfl, ?_⟩
    rw [Token.chunk_of_plain rfl (by decide) (by decide) (by decide), Token.lexemeChunk.eq_def]
    simp only [List.nil_append, hlongest]
    rfl

theorem isIdentRest_head_name {n : String} (h : IsName n) :
    ∃ c cs, n.toList = c :: cs ∧ Text.isIdentRest c = true := by
  obtain ⟨⟨c, cs, hn, hc, -⟩, -⟩ := h
  exact ⟨c, cs, hn, by rw [Text.isIdentRest, hc, Bool.true_or, Bool.true_or]⟩

theorem isIdentRest_head_number (n : Nat) :
    ∃ c cs, (toString n).toList = c :: cs ∧ Text.isIdentRest c = true := by
  have htext : (toString n).toList = Nat.toDigits 10 n := String.toList_ofList
  cases hn : Nat.toDigits 10 n with
  | nil => exact absurd hn Nat.toDigits_ne_nil
  | cons c cs =>
    have hc : c ∈ Nat.toDigits 10 n := hn ▸ List.mem_cons_self
    exact ⟨c, cs, htext.trans hn,
      Token.isIdentRest_of_isDigit (Nat.isDigit_of_mem_toDigits (by decide) (by decide) hc)⟩

theorem isIdentRest_head_text (hs : s.Named name) :
    ∃ c cs, (s.text name).toList = c :: cs ∧ Text.isIdentRest c = true := by
  unfold text
  cases hx : s.symbol? with
  | none => exact isIdentRest_head_number _
  | some x =>
    dsimp only
    rw [toList_termText]
    split
    · exact isIdentRest_head_name (hs x hx)
    · obtain ⟨c, cs, htext, hc⟩ := isIdentRest_head_number s.number.natAbs
      exact ⟨c, _, by rw [htext, List.cons_append], hc⟩

theorem laid_text (hs : s.Named name) (hrest : Token.Parted rest) (h : Token.Laid ws rest) :
    Token.Laid (s.words name ++ ws) ((s.text name).toList ++ rest) := by
  unfold text words
  cases hx : s.symbol? with
  | none => exact .word (Token.apart_number _ hrest.severed) h
  | some x =>
    have hname : Token.Laid (.name (name x) :: ws) ((name x).toList ++ rest) :=
      .word (Token.apart_name (hs x hx) hrest.severed) h
    dsimp only
    rw [toList_termText]
    split
    · exact hname
    · obtain ⟨c, cs, hc, hstart⟩ := isIdentRest_head_name (hs x hx)
      have hstar : Token.Apart (.punct .star) ((name x).toList ++ rest) := by
        rw [hc, List.cons_append]
        exact apart_punct (Or.inl rfl) hstart
      have hnumber : Token.Severed ('*' :: ((name x).toList ++ rest)) :=
        Token.severed_cons (by decide) (by decide)
      rw [List.append_assoc]
      exact .word (Token.apart_number _ hnumber) (.word hstar hname)

def laterText (name : Symbol → String) (s : Summand) : String :=
  (if s.number < 0 then " - " else " + ") ++ s.text name

theorem toList_laterText (name : Symbol → String) (s : Summand) : (s.laterText name).toList =
    ' ' :: ((Lexeme.punct s.sign).text.toList ++ ' ' :: (s.text name).toList) := by
  unfold laterText sign
  split <;> simp [Lexeme.text, Punct.spelling, Punct.chars]

theorem laid_later (hs : s.Named name) (hrest : Token.Parted rest) (h : Token.Laid ws rest) :
    Token.Laid (.punct s.sign :: (s.words name ++ ws)) ((s.laterText name).toList ++ rest) := by
  rw [toList_laterText, List.cons_append, List.append_assoc, List.cons_append]
  exact .space (.word (Token.apart_of_parted (w := .punct s.sign) trivial (Or.inr ⟨_, rfl⟩))
    (.space (laid_text hs hrest h)))

theorem laid_first (hs : s.Named name) (hrest : Token.Parted rest) (h : Token.Laid ws rest) :
    Token.Laid (s.firstWords name ++ ws)
      ((if s.number < 0 then "-" else "").toList ++ ((s.text name).toList ++ rest)) := by
  have htext := laid_text hs hrest h
  unfold firstWords
  split
  · obtain ⟨c, cs, hc, hstart⟩ := isIdentRest_head_text hs
    have hminus : Token.Apart (.punct .minus) ((s.text name).toList ++ rest) := by
      rw [hc, List.cons_append]
      exact apart_punct (Or.inr rfl) hstart
    exact .word hminus htext
  · exact htext

end Text

end Summand

/-- The summands in the order of the text. A zero is left out unless nothing else is there. -/
def summands (l : Linear) : List Summand :=
  l.terms.entries.map (fun t => ⟨some t.1, t.2⟩) ++
    if l.constant = 0 ∧ l.terms.entries ≠ [] then [] else [⟨none, l.constant⟩]

section Summands

variable {l : Linear}

theorem summands_ne_nil (l : Linear) : l.summands ≠ [] := by
  unfold summands
  cases l.terms.entries <;> simp

theorem part_of_mem_summands {s : Summand} (h : s ∈ l.summands) : l.part s.symbol? = s.number := by
  rcases List.mem_append.mp h with h | h
  · obtain ⟨t, ht, rfl⟩ := List.mem_map.mp h
    exact coefficient_of_mem ht
  · split at h
    · cases h
    · obtain rfl := List.mem_singleton.mp h
      rfl

theorem part_of_not_mem {o : Option Symbol} (h : o ∉ l.summands.map Summand.symbol?) :
    l.part o = 0 := by
  by_contra hne
  apply h
  rw [summands, List.map_append, List.map_map, List.mem_append]
  cases o with
  | some x => exact Or.inl (List.mem_map.mpr ⟨_, mem_entries hne, rfl⟩)
  | none =>
    right
    rw [if_neg fun hzero => hne hzero.1]
    exact List.mem_singleton.mpr rfl

theorem nodup_summands (l : Linear) : (l.summands.map Summand.symbol?).Nodup := by
  have hterms : ((l.terms.entries.map fun t => (⟨some t.1, t.2⟩ : Summand)).map
      Summand.symbol?).Nodup := by
    rw [List.map_map]
    apply List.Pairwise.map _ _ l.terms.sorted
    intro a b hab h
    exact hab.ne (Option.some.inj h)
  rw [summands, List.map_append]
  split
  · rwa [List.map_nil, List.append_nil]
  · refine List.nodup_append.mpr ⟨hterms, by simp, ?_⟩
    intro o ho o' ho' h
    obtain ⟨s, hs, rfl⟩ := List.mem_map.mp ho
    obtain ⟨t, -, rfl⟩ := List.mem_map.mp hs
    obtain rfl := List.mem_singleton.mp ho'
    cases h

def sumExpr (e : Expr) (ss : List Summand) : Expr :=
  ss.foldl (fun e s => .binary s.op e (s.exprWith id) .none) e

def laterWords (name : Symbol → String) (ss : List Summand) : List Lexeme :=
  ss.flatMap fun s => .punct s.sign :: s.words name

/-- The summands fill in what the form before them lacks of `l`. -/
theorem ofExpr?_sumExpr {ss : List Summand} {e : Expr} {m : Linear} (he : ofExpr? e = some m)
    (hm : ∀ o, Word.Fits (m.part o))
    (hfits : ∀ s ∈ ss, Word.Fits s.number ∧ Word.Fits s.number.natAbs)
    (hnodup : (ss.map Summand.symbol?).Nodup) (hfree : ∀ s ∈ ss, m.part s.symbol? = 0)
    (hpart : ∀ s ∈ ss, l.part s.symbol? = s.number)
    (hrest : ∀ o ∉ ss.map Summand.symbol?, m.part o = l.part o) :
    ofExpr? (sumExpr e ss) = some l := by
  induction ss generalizing e m with
  | nil =>
    obtain rfl : m = l := ext_part fun o => hrest o List.not_mem_nil
    exact he
  | cons s ss ih =>
    rw [List.map_cons, List.nodup_cons] at hnodup
    rw [List.forall_mem_cons] at hfits hfree hpart
    obtain ⟨m', he', hm'⟩ := Summand.ofExpr?_snoc hfits.1.1 hfits.1.2 he hm hfree.1
    apply ih he' _ hfits.2 hnodup.2 _ hpart.2
    · intro o ho
      rw [hm']
      split
      · next hs => rw [hs, hpart.1]
      · next hs => exact hrest o fun hmem => (List.mem_cons.mp hmem).elim hs ho
    · intro o
      rw [hm']
      split
      · exact hfits.1.1
      · exact hm o
    · intro t ht
      have hne : t.symbol? ≠ s.symbol? := fun h => hnodup.1 (h ▸ List.mem_map_of_mem ht)
      rw [hm', if_neg hne, hfree.2 t ht]

theorem ofExpr?_summands {s : Summand} {ss : List Summand} (h : l.summands = s :: ss)
    (hfits : ∀ o, Word.Fits (l.part o)) (habs : ∀ t ∈ s :: ss, Word.Fits t.number.natAbs) :
    ofExpr? (sumExpr s.firstExpr ss) = some l := by
  have hpart : ∀ t ∈ s :: ss, l.part t.symbol? = t.number := fun t ht =>
    part_of_mem_summands (h ▸ ht)
  have hnumber : ∀ t ∈ s :: ss, Word.Fits t.number := fun t ht => hpart t ht ▸ hfits t.symbol?
  have hnodup := nodup_summands l
  rw [h, List.map_cons, List.nodup_cons] at hnodup
  rw [List.forall_mem_cons] at hpart hnumber habs
  apply ofExpr?_sumExpr (Summand.ofExpr?_first hnumber.1 habs.1)
    (Summand.fits_part_form hnumber.1) (fun t ht => ⟨hnumber.2 t ht, habs.2 t ht⟩) hnodup.2 _
    hpart.2
  · intro o ho
    rw [Summand.part_form]
    split
    · next hs => rw [hs, hpart.1]
    · next hs =>
      apply (part_of_not_mem _).symm
      rw [h, List.map_cons, List.mem_cons]
      exact fun hmem => hmem.elim hs ho
  · intro t ht
    have hne : t.symbol? ≠ s.symbol? := fun h => hnodup.1 (h ▸ List.mem_map_of_mem ht)
    rw [Summand.part_form, if_neg hne]

section Readings

variable {sc : Scopes} {ws : List Lexeme} {e : Expr} {ss : List Summand}

theorem chain_sumExpr (h : Chain sc 8 ws e)
    (hss : ∀ s ∈ ss, s.Visible sc ∧ Word.Fits s.number.natAbs) :
    Chain sc 8 (ws ++ laterWords sc.table.name ss) (sumExpr e ss) := by
  induction ss generalizing ws e with
  | nil => rwa [laterWords, List.flatMap_nil, List.append_nil]
  | cons s ss ih =>
    rw [List.forall_mem_cons] at hss
    rw [laterWords, List.flatMap_cons, ← List.append_assoc]
    exact ih (Summand.chain_snoc h hss.1.1 hss.1.2) hss.2

theorem rejects_sumExpr (h : Chain sc 8 ws e) (hss : ∀ s ∈ ss, s.Visible sc) {s : Summand}
    (hs : s ∈ ss) (habs : ¬ Word.Fits s.number.natAbs) :
    Rejects sc 11 (ws ++ laterWords sc.table.name ss) := by
  induction ss generalizing ws e with
  | nil => cases hs
  | cons t ss ih =>
    rw [List.forall_mem_cons] at hss
    rw [laterWords, List.flatMap_cons, ← List.append_assoc]
    by_cases ht : Word.Fits t.number.natAbs
    · have hmem : s ∈ ss := (List.mem_cons.mp hs).resolve_left fun h => habs (h ▸ ht)
      exact ih (Summand.chain_snoc h hss.1 ht) hss.2 hmem
    · exact (Summand.chain_rejects h ht).append _

theorem reads_summands {s : Summand} (hvisible : ∀ t ∈ s :: ss, t.Visible sc)
    (habs : ∀ t ∈ s :: ss, Word.Fits t.number.natAbs) :
    Reads sc 0 (s.firstWords sc.table.name ++ laterWords sc.table.name ss)
      (sumExpr s.firstExpr ss) := by
  rw [List.forall_mem_cons] at hvisible habs
  have hfirst : Reads sc 12 _ _ := Summand.reads_first hvisible.1 habs.1
  have hchain : Chain sc 8 _ _ :=
    chain_sumExpr hfirst.chain fun t ht => ⟨hvisible.2 t ht, habs.2 t ht⟩
  exact (hchain.reads (by omega)).mono (by omega) (by omega)

theorem rejects_summands {s t : Summand} (hvisible : ∀ t ∈ s :: ss, t.Visible sc)
    (ht : t ∈ s :: ss) (habs : ¬ Word.Fits t.number.natAbs) :
    Rejects sc 0 (s.firstWords sc.table.name ++ laterWords sc.table.name ss) := by
  rw [List.forall_mem_cons] at hvisible
  have hrejects : Rejects sc 11 (s.firstWords sc.table.name ++ laterWords sc.table.name ss) := by
    by_cases hs : Word.Fits s.number.natAbs
    · have hmem : t ∈ ss := (List.mem_cons.mp ht).resolve_left fun h => habs (h ▸ hs)
      have hfirst : Reads sc 12 _ _ := Summand.reads_first hvisible.1 hs
      exact rejects_sumExpr hfirst.chain hvisible.2 hmem habs
    · exact (Summand.rejects_first hs).append _
  have hne : s.firstWords sc.table.name ++ laterWords sc.table.name ss ≠ [] :=
    List.append_ne_nil_of_left_ne_nil (Summand.firstWords_ne_nil _ s) _
  exact hrejects.mono hne (by omega) (by omega)

end Readings

theorem laid_laterWords {name : Symbol → String} {ss : List Summand}
    (hss : ∀ s ∈ ss, s.Named name) :
    Token.Laid (laterWords name ss) (ss.flatMap fun s => (s.laterText name).toList) ∧
      Token.Parted (ss.flatMap fun s => (s.laterText name).toList) := by
  induction ss with
  | nil => exact ⟨.nil, Or.inl rfl⟩
  | cons s ss ih =>
    rw [List.forall_mem_cons] at hss
    obtain ⟨hlaid, hparted⟩ := ih hss.2
    rw [laterWords, List.flatMap_cons, List.flatMap_cons]
    refine ⟨Summand.laid_later hss.1 hparted hlaid, Or.inr ?_⟩
    rw [Summand.toList_laterText]
    exact ⟨_, rfl⟩

theorem toString_int (n : Int) :
    toString n = (if n < 0 then "-" else "") ++ toString n.natAbs := by
  cases n <;> simp <;> rfl

theorem toList_written {name : Symbol → String} {s : Summand} {ss : List Summand}
    (h : l.summands = s :: ss) :
    (l.written name).toList = (if s.number < 0 then "-" else "").toList ++
      ((s.text name).toList ++ ss.flatMap fun s => (s.laterText name).toList) := by
  unfold summands at h
  unfold written
  cases hentries : l.terms.entries with
  | nil =>
    rw [hentries, if_neg fun hne => hne.2 rfl] at h
    obtain ⟨rfl, rfl⟩ := List.cons.inj h
    simp [toString_int l.constant, Summand.text]
  | cons t ts =>
    have hlater (t : Symbol × Int) : laterTermText name t =
        (⟨some t.1, t.2⟩ : Summand).laterText name := rfl
    rw [hentries] at h
    obtain ⟨rfl, rfl⟩ := List.cons.inj h
    by_cases hzero : l.constant = 0
    · simp [hzero, hlater, Summand.text, String.toList_join, List.flatMap_map]
    · simp [hzero, hlater, Summand.text, Summand.laterText, String.toList_join, List.flatMap_map]

theorem Fits.part (hl : l.Fits) (o : Option Symbol) : Word.Fits (l.part o) := by
  cases o with
  | none => exact hl.constant
  | some x => exact hl.coefficient x

theorem forall_summands_iff (hl : l.Fits) :
    (∀ s ∈ l.summands, Word.Fits s.number.natAbs) ↔
      l.constant ≠ -9223372036854775808 ∧ ∀ x, l.coefficient x ≠ -9223372036854775808 := by
  constructor
  · intro h
    have hpart (o : Option Symbol) : l.part o ≠ -9223372036854775808 := by
      by_cases ho : o ∈ l.summands.map Summand.symbol?
      · obtain ⟨s, hs, rfl⟩ := List.mem_map.mp ho
        have habs := h s hs
        rw [← part_of_mem_summands hs] at habs
        exact (Word.fits_natAbs_iff (hl.part _)).mp habs
      · rw [part_of_not_mem ho]
        decide
    exact ⟨hpart none, fun x => hpart (some x)⟩
  · rintro ⟨hconstant, hcoefficient⟩ s hs
    rw [← part_of_mem_summands hs]
    apply (Word.fits_natAbs_iff (hl.part _)).mpr
    cases s.symbol? with
    | none => exact hconstant
    | some x => exact hcoefficient x

theorem mem_support_of_mem_summands {s : Summand} (hs : s ∈ l.summands) {x : Symbol}
    (hx : x ∈ s.symbol?) : x ∈ l.support := by
  rcases List.mem_append.mp hs with h | h
  · obtain ⟨t, ht, rfl⟩ := List.mem_map.mp h
    cases hx
    exact List.mem_map_of_mem ht
  · split at h
    · cases h
    · obtain rfl := List.mem_singleton.mp h
      cases hx

end Summands

theorem forM_abs_eq_ok {ts : List (Symbol × Int)} :
    ts.forM (fun t => discard (Word.abs t.2)) = .ok () ↔ ∀ t ∈ ts, Word.Fits t.2.natAbs := by
  induction ts with
  | nil => exact iff_of_true rfl (List.forall_mem_nil _)
  | cons t ts ih =>
    rw [List.forall_mem_cons, ← ih]
    change (discard (Word.abs t.2) >>= fun _ => ts.forM fun t => discard (Word.abs t.2)) = _ ↔ _
    rw [Word.abs, Word.unchecked]
    split
    · next h => exact (and_iff_right h).symm
    · next h => exact iff_of_false (fun h => by cases h) fun hall => h hall.1

theorem text_eq_ok_iff {l : Linear} {name : Symbol → String} {text : String} :
    l.text name = .ok text ↔ (∀ x, Word.Fits (l.coefficient x).natAbs) ∧ text = l.written name := by
  have hall : (∀ x, Word.Fits (l.coefficient x).natAbs) ↔
      ∀ t ∈ l.terms.entries, Word.Fits t.2.natAbs := by
    constructor
    · intro h t ht
      exact coefficient_of_mem ht ▸ h t.1
    · intro h x
      by_cases hx : l.coefficient x = 0
      · rw [hx]
        exact Word.fits_zero
      · exact h _ (mem_entries hx)
  rw [hall, ← forM_abs_eq_ok, Linear.text]
  cases l.terms.entries.forM fun t => discard (Word.abs t.2) with
  | error o => exact iff_of_false (fun h => by cases h) fun h => by cases h.1
  | ok u => exact ⟨fun h => ⟨rfl, (Except.ok.inj h).symm⟩, fun h => congrArg _ h.2.symm⟩

/-- The text of a form, read as an expression where its bindings are visible under their names,
is reduced to the same form. Only the least word stands in the way: as a coefficient it has no
text, and as the constant its digits are no literal. -/
theorem text_reads_back_iff {sc : Scopes} {l : Linear} (hl : l.Fits)
    (hnames : ∀ x ∈ l.support,
      IsName (sc.table.name x) ∧ sc.lookup? (sc.table.name x) = some x) (p : Span) (nl : Nat) :
    (∃ text e p', l.text sc.table.name = .ok text ∧
      expression ⟨(Token.scan text).tokens, (Token.scan text).ending, p, sc, nl⟩ =
        .ok (e, ⟨[], (Token.scan text).ending, p', sc, nl⟩) ∧ ofExpr? e = some l) ↔
      l.constant ≠ -9223372036854775808 ∧ ∀ x, l.coefficient x ≠ -9223372036854775808 := by
  obtain ⟨s, ss, hsummands⟩ := List.exists_cons_of_ne_nil l.summands_ne_nil
  have hmem : ∀ t ∈ s :: ss, ∀ x ∈ t.symbol?, x ∈ l.support := fun t ht x hx =>
    mem_support_of_mem_summands (hsummands ▸ ht) hx
  have hvisible : ∀ t ∈ s :: ss, t.Visible sc := fun t ht x hx => (hnames x (hmem t ht x hx)).2
  have hnamed : ∀ t ∈ s :: ss, t.Named sc.table.name := fun t ht x hx =>
    (hnames x (hmem t ht x hx)).1
  have hlaid : Token.Laid (s.firstWords sc.table.name ++ laterWords sc.table.name ss)
      (l.written sc.table.name).toList := by
    rw [List.forall_mem_cons] at hnamed
    obtain ⟨hlater, hparted⟩ := laid_laterWords hnamed.2
    rw [toList_written hsummands]
    exact Summand.laid_first hnamed.1 hparted hlater
  rw [← forall_summands_iff hl, hsummands]
  constructor
  · rintro ⟨text, e, p', htext, hrun, -⟩ t ht
    obtain ⟨-, rfl⟩ := text_eq_ok_iff.mp htext
    by_contra habs
    obtain ⟨err, herr⟩ := (rejects_summands hvisible ht habs).expression_of_laid hlaid p nl
    rw [hrun] at herr
    cases herr
  · intro habs
    obtain ⟨e, p', hrun, he⟩ := (reads_summands hvisible habs).expression_of_laid hlaid p nl
    rw [← hsummands, forall_summands_iff hl] at habs
    refine ⟨_, e, p', text_eq_ok_iff.mpr ⟨fun x => ?_, rfl⟩, hrun, ?_⟩
    · exact (Word.fits_natAbs_iff (hl.coefficient x)).mpr (habs.2 x)
    · rw [← ofExpr?_erase, he, ofExpr?_erase]
      exact ofExpr?_summands hsummands hl.part (hsummands ▸ (forall_summands_iff hl).mpr habs)

/-- A sign in front of a name, a product and a negative constant. -/
theorem text_reads_back_signs :
    let sc := ((Scopes.empty.declare "x" .scalar .none).2.declare "y" .scalar .none).2
    let l := ((const (-7)).set 0 (-1)).set 1 3
    let scan := Token.scan "-x + 3*y - 7"
    l.text sc.table.name = .ok "-x + 3*y - 7" ∧
      ∃ e p', expression ⟨scan.tokens, scan.ending, .none, sc, 0⟩ =
        .ok (e, ⟨[], scan.ending, p', sc, 0⟩) ∧ ofExpr? e = some l := by
  intro sc l scan
  have hbounds (x : Symbol) : -1 ≤ l.coefficient x ∧ l.coefficient x ≤ 3 := by
    have hzero : (const (-7)).coefficient x = 0 := rfl
    rw [coefficient_set, coefficient_set, hzero]
    split
    · decide
    · split <;> decide
  have hl : l.Fits := by
    refine ⟨by decide, fun x => ?_⟩
    have := hbounds x
    unfold Word.Fits
    omega
  have hx : IsName "x" := ⟨⟨'x', [], rfl, by decide, fun _ h => by cases h⟩, rfl⟩
  have hy : IsName "y" := ⟨⟨'y', [], rfl, by decide, fun _ h => by cases h⟩, rfl⟩
  have hnames : ∀ x ∈ l.support,
      IsName (sc.table.name x) ∧ sc.lookup? (sc.table.name x) = some x := by
    have hsupport : l.support = [0, 1] := by decide
    rw [hsupport, List.forall_mem_cons, List.forall_mem_singleton]
    exact ⟨⟨hx, rfl⟩, hy, rfl⟩
  have hwritten : l.written sc.table.name = "-x + 3*y - 7" := by decide +kernel
  obtain ⟨text, e, p', htext, hread⟩ := (text_reads_back_iff hl hnames .none 0).mpr
    ⟨by decide, fun x => by
      have := hbounds x
      omega⟩
  obtain ⟨-, rfl⟩ := text_eq_ok_iff.mp htext
  rw [hwritten] at htext hread
  exact ⟨htext, e, p', hread⟩

end Linear

end LoopLegality

import LoopLegality.Proofs.ErasedGrammar
import LoopLegality.Proofs.Places

namespace LoopLegality

theorem Position.after_append (p : Position) (cs ds : List Char) :
    p.after (cs ++ ds) = (p.after cs).after ds :=
  List.foldl_append

namespace Token

def Chunk.extra? : Chunk → Option Nat
  | .layout n | .directive n _ | .lexeme n _ => some n
  | .fault _ _ => none

section Locality

variable {a cs cs' : List Char}

theorem head?_of_shorter (hpre : cs' <+: cs) (a : List Char) :
    (a ++ cs').head? = none ∨ (a ++ cs').head? = (a ++ cs).head? := by
  obtain ⟨ds, rfl⟩ := hpre
  cases a <;> cases cs' <;> simp

theorem countWhile_cons (p : Char → Bool) (c : Char) (cs : List Char) :
    countWhile p (c :: cs) = if p c then countWhile p cs + 1 else 0 := by
  rw [countWhile, List.takeWhile_cons]
  split <;> rfl

theorem countWhile_of_shorter {p : Char → Bool} (hpre : cs' <+: cs)
    (h : countWhile p (a ++ cs) ≤ a.length) :
    countWhile p (a ++ cs') = countWhile p (a ++ cs) := by
  induction a with
  | nil =>
    cases cs' with
    | nil => exact (Nat.le_zero.mp h).symm
    | cons c cs' =>
      obtain ⟨ds, rfl⟩ := hpre
      rw [List.nil_append, List.cons_append, countWhile_cons] at h
      rw [List.nil_append, List.nil_append, List.cons_append, countWhile_cons, countWhile_cons]
      split at h
      · simp at h
      · next hc => rw [if_neg hc, if_neg hc]
  | cons c a ih =>
    rw [List.cons_append, countWhile_cons] at h
    rw [List.cons_append, List.cons_append, countWhile_cons, countWhile_cons]
    split
    · next hc =>
      rw [if_pos hc, List.length_cons] at h
      rw [ih (by omega)]
    · rfl

theorem exists_cons_cons (h : 2 ≤ a.length) : ∃ c d b, a = c :: d :: b := by
  cases a with
  | nil => simp at h
  | cons c a =>
    cases a with
    | nil => simp at h
    | cons d b => exact ⟨c, d, b, rfl⟩

theorem commentLength?_of_shorter {n : Nat} (h : commentLength? (a ++ cs) = some n)
    (hn : n ≤ a.length) : commentLength? (a ++ cs') = some n := by
  generalize hds : a ++ cs = ds at h
  fun_induction commentLength? ds generalizing a n with
  | case1 => cases h
  | case2 ds =>
    cases h
    obtain ⟨c, d, b, rfl⟩ := exists_cons_cons hn
    simp only [List.cons_append, List.cons.injEq] at hds
    obtain ⟨rfl, rfl, -⟩ := hds
    rfl
  | case3 c ds hne ih =>
    obtain ⟨m, hm, rfl⟩ := Option.map_eq_some_iff.mp h
    cases a with
    | nil => simp at hn
    | cons d a =>
      rw [List.cons_append, List.cons.injEq] at hds
      obtain ⟨rfl, rfl⟩ := hds
      have hrest := ih (by simpa using hn) rfl hm
      have hlen : 2 ≤ a.length := by
        obtain ⟨text, rest, -, rfl, -⟩ := commentLength?_eq_some hm
        simp only [List.length_cons] at hn
        omega
      have hstep : commentLength? (d :: (a ++ cs')) = (commentLength? (a ++ cs')).map (· + 1) := by
        rw [commentLength?]
        rintro es rfl heq
        cases a with
        | nil => simp at hlen
        | cons e a =>
          rw [List.cons_append, List.cons.injEq] at heq
          exact hne (a ++ cs) rfl (by rw [List.cons_append, heq.1])
      rw [List.cons_append, hstep, hrest]
      rfl

theorem quotedRest_of_shorter {q : Char} {n : Nat} (h : quotedRest q (a ++ cs) = .ok n)
    (hn : n ≤ a.length) : quotedRest q (a ++ cs') = .ok n := by
  generalize hds : a ++ cs = ds at h
  fun_induction quotedRest q ds generalizing a n with
  | case1 | case3 | case4 | case6 | case8 => cases h
  | case2 =>
    cases h
    cases a with
    | nil => simp at hn
    | cons d a =>
      rw [List.cons_append, List.cons.injEq] at hds
      rw [hds.1, List.cons_append, quotedRest.eq_def]
      exact if_pos rfl
  | case5 c ds m hm hq hbreak ih =>
    cases h
    obtain ⟨d, e, b, rfl⟩ := exists_cons_cons (Nat.le_trans (Nat.le_add_left 2 m) hn)
    simp only [List.cons_append, List.cons.injEq] at hds
    obtain ⟨rfl, rfl, hds⟩ := hds
    have hrest := ih (by simpa using hn) hds hm
    rw [List.cons_append, List.cons_append, quotedRest.eq_def]
    simp [hq, hrest]
  | case7 c ds hq hbreak hslash m hm ih =>
    cases h
    cases a with
    | nil => simp at hn
    | cons d a =>
      rw [List.cons_append, List.cons.injEq] at hds
      obtain ⟨rfl, hds⟩ := hds
      have hrest := ih (by simpa using hn) hds hm
      rw [List.cons_append, quotedRest.eq_def]
      simp [hq, hbreak, hslash, hrest]

theorem directiveRest_of_shorter (hpre : cs' <+: cs) (h : (directiveRest (a ++ cs)).1 ≤ a.length) :
    directiveRest (a ++ cs') = directiveRest (a ++ cs) := by
  have hhead := head?_of_shorter hpre
  generalize hds : a ++ cs = ds at h ⊢
  fun_induction directiveRest ds generalizing a with
  | case1 =>
    obtain ⟨rfl, rfl⟩ := List.append_eq_nil_iff.mp hds
    obtain rfl := List.prefix_nil.mp hpre
    rfl
  | case2 ds =>
    have hhead := hhead a
    rw [hds] at hhead
    cases hcut : a ++ cs' with
    | nil => rfl
    | cons c es =>
      obtain rfl : c = '\n' := by simpa [hcut] using hhead
      rfl
  | case3 ds r =>
    rename_i ih
    obtain ⟨d, e, b, rfl⟩ := exists_cons_cons (Nat.le_trans (Nat.le_add_left 2 r.1) h)
    simp only [List.cons_append, List.cons.injEq] at hds
    obtain ⟨rfl, rfl, hds⟩ := hds
    have hrest := ih hds (by simpa using h)
    simp only [List.cons_append, directiveRest, hrest]
    rfl
  | case4 c ds hbreak hpair r =>
    rename_i ih
    cases a with
    | nil => simp at h
    | cons d a =>
      rw [List.cons_append, List.cons.injEq] at hds
      obtain ⟨rfl, hds⟩ := hds
      have hrest := ih hds (by simpa using h)
      have hcut : ∀ es, d = '\\' → a ++ cs' = '\n' :: es → False := by
        intro es hd hes
        have hhead := hhead a
        rw [hds, hes] at hhead
        have hnext : ds.head? = some '\n' := (hhead.resolve_left (by simp)).symm
        obtain ⟨fs, rfl⟩ := List.head?_eq_some_iff.mp hnext
        exact hpair fs hd rfl
      rw [List.cons_append, directiveRest.eq_4 _ _ hbreak hcut, hrest]

def signLength (ds : List Char) : Nat :=
  if ds.head?.any fun s => s == '+' || s == '-' then 1 else 0

theorem signLength_le (ds : List Char) : signLength ds ≤ 1 := by
  unfold signLength
  split <;> omega

theorem exponentLength_cons (e : Char) (ds : List Char) :
    exponentLength (e :: ds) = if e == 'e' || e == 'E' then
      if countWhile Char.isDigit (ds.drop (signLength ds)) = 0 then .error (1 + signLength ds)
      else .ok (1 + signLength ds + countWhile Char.isDigit (ds.drop (signLength ds)))
    else .ok 0 := by
  cases ds <;> rfl

theorem exponentLength_of_shorter {n : Nat} (hpre : cs' <+: cs)
    (h : exponentLength (a ++ cs) = .ok n) (hn : n ≤ a.length) :
    exponentLength (a ++ cs') = .ok n := by
  cases a with
  | nil =>
    obtain rfl : n = 0 := Nat.le_zero.mp hn
    cases cs' with
    | nil => rfl
    | cons e es =>
      obtain ⟨ds, rfl⟩ := hpre
      rw [List.nil_append, List.cons_append, exponentLength_cons] at h
      rw [List.nil_append, exponentLength_cons]
      split at h
      · split at h
        · cases h
        · simp only [Except.ok.injEq] at h
          omega
      · next he => rw [if_neg he]
  | cons e a =>
    rw [List.cons_append, exponentLength_cons] at h ⊢
    rw [List.length_cons] at hn
    split at h
    · next he =>
      rw [if_pos he]
      split at h
      · cases h
      · next hpos =>
        cases h
        have hsign := signLength_le (a ++ cs)
        have hlen : 1 ≤ a.length := by omega
        have hsame : signLength (a ++ cs') = signLength (a ++ cs) := by
          cases a with
          | nil => simp at hlen
          | cons d a => rfl
        rw [hsame]
        rw [List.drop_append_of_le_length (by omega)] at hpos hn ⊢
        rw [List.drop_append_of_le_length (by omega), countWhile_of_shorter hpre, if_neg hpos]
        rw [List.length_drop]
        omega
    · next he => rw [if_neg he, h]

def fractionLength : List Char → Nat
  | '.' :: ds => 1 + countWhile Char.isDigit ds
  | _ => 0

theorem fractionLength_cons_of_ne {c : Char} (hc : c ≠ '.') (ds : List Char) :
    fractionLength (c :: ds) = 0 := by
  rw [fractionLength]
  rintro es heq
  exact hc (List.cons.inj heq).1

theorem fractionLength_of_shorter (hpre : cs' <+: cs) (h : fractionLength (a ++ cs) ≤ a.length) :
    fractionLength (a ++ cs') = fractionLength (a ++ cs) := by
  cases a with
  | nil =>
    cases cs' with
    | nil => exact (Nat.le_zero.mp h).symm
    | cons c es =>
      obtain ⟨ds, rfl⟩ := hpre
      by_cases hc : c = '.'
      · subst hc
        simp only [List.nil_append, List.cons_append, fractionLength, List.length_nil] at h
        omega
      · exact (fractionLength_cons_of_ne hc es).trans (fractionLength_cons_of_ne hc _).symm
  | cons c a =>
    rw [List.cons_append] at h ⊢
    by_cases hc : c = '.'
    · subst hc
      simp only [fractionLength, List.length_cons] at h
      have hcount : countWhile Char.isDigit (a ++ cs') = countWhile Char.isDigit (a ++ cs) :=
        countWhile_of_shorter hpre (by omega)
      simp only [List.cons_append, fractionLength, hcount]
    · rw [fractionLength_cons_of_ne hc, List.cons_append, fractionLength_cons_of_ne hc]

theorem decimalChunk_eq (ds : List Char) :
    decimalChunk ds =
      let w := countWhile Char.isDigit ds
      let f := fractionLength (ds.drop w)
      match exponentLength (ds.drop (w + f)) with
      | .error n => .fault (w + f + n - 1) .noExponentDigit
      | .ok e => .lexeme (w + f + e + suffixLength (0 < f + e) (ds.drop (w + f + e)) - 1)
          (if 0 < f + e then .float else .integer) := rfl

/-- The parts of a number: a whole part, a fraction and an exponent, before its suffix. -/
structure HasParts (ds : List Char) (w f e : Nat) : Prop where
  whole : countWhile Char.isDigit ds = w
  fraction : fractionLength (ds.drop w) = f
  exponent : exponentLength (ds.drop (w + f)) = .ok e

theorem HasParts.chunk_eq {ds : List Char} {w f e : Nat} (h : HasParts ds w f e) :
    decimalChunk ds = .lexeme (w + f + e + suffixLength (0 < f + e) (ds.drop (w + f + e)) - 1)
      (if 0 < f + e then .float else .integer) := by
  obtain ⟨rfl, rfl, h⟩ := h
  simp only [decimalChunk_eq, h]

theorem exists_hasParts {ds : List Char} {n : Nat} (h : (decimalChunk ds).extra? = some n) :
    ∃ w f e, HasParts ds w f e := by
  cases he : exponentLength (ds.drop (countWhile Char.isDigit ds +
      fractionLength (ds.drop (countWhile Char.isDigit ds)))) with
  | ok e => exact ⟨_, _, e, rfl, rfl, he⟩
  | error e =>
    simp only [decimalChunk_eq, he] at h
    cases h

theorem decimalChunk_of_shorter {n : Nat} (hpre : cs' <+: cs)
    (h : (decimalChunk (a ++ cs)).extra? = some n) (hn : n < a.length) :
    decimalChunk (a ++ cs') = decimalChunk (a ++ cs) := by
  obtain ⟨w, f, e, hparts⟩ := exists_hasParts h
  rw [hparts.chunk_eq, Chunk.extra?, Option.some.injEq] at h
  have hdrop {k : Nat} (hk : k ≤ a.length) (ds : List Char) :
      (a ++ ds).drop k = a.drop k ++ ds := List.drop_append_of_le_length hk
  have hcut : HasParts (a ++ cs') w f e := by
    obtain ⟨hwhole, hfraction, hexponent⟩ := hparts
    rw [hdrop (by omega)] at hfraction hexponent
    refine ⟨?_, ?_, ?_⟩
    · rw [countWhile_of_shorter hpre (by omega), hwhole]
    · rw [hdrop (by omega), fractionLength_of_shorter hpre (by rw [List.length_drop]; omega),
        hfraction]
    · rw [hdrop (by omega)]
      exact exponentLength_of_shorter hpre hexponent (by rw [List.length_drop]; omega)
  have hsuffix : suffixLength (0 < f + e) ((a ++ cs').drop (w + f + e)) =
      suffixLength (0 < f + e) ((a ++ cs).drop (w + f + e)) := by
    rw [hdrop (by omega), suffixLength] at h
    rw [hdrop (by omega), hdrop (by omega), suffixLength, suffixLength]
    exact countWhile_of_shorter hpre (by rw [List.length_drop]; omega)
  rw [hcut.chunk_eq, hparts.chunk_eq, hsuffix]

theorem hexChunk_of_shorter {n : Nat} (hpre : cs' <+: cs)
    (h : (hexChunk (a ++ cs)).extra? = some n) (hn : n ≤ a.length + 1) :
    hexChunk (a ++ cs') = hexChunk (a ++ cs) := by
  rw [hexChunk] at h
  split at h
  · cases h
  · simp only [Chunk.extra?, Option.some.injEq] at h
    have hcount : countWhile isHexDigit (a ++ cs') = countWhile isHexDigit (a ++ cs) :=
      countWhile_of_shorter hpre (by omega)
    rw [hexChunk, hexChunk, hcount]
    generalize countWhile isHexDigit (a ++ cs) = m at h ⊢
    rw [List.drop_append_of_le_length (by omega), suffixLength] at h
    rw [List.drop_append_of_le_length (by omega), List.drop_append_of_le_length (by omega),
      suffixLength, suffixLength, countWhile_of_shorter hpre]
    rw [List.length_drop]
    omega

theorem quotedChunk_of_shorter {kind : Kind} {q : Char} {n : Nat}
    (h : (quotedChunk kind q (a ++ cs)).extra? = some n) (hn : n ≤ a.length) :
    quotedChunk kind q (a ++ cs') = quotedChunk kind q (a ++ cs) := by
  rw [quotedChunk] at h ⊢
  split at h
  · next m hm =>
    obtain rfl : m = n := by simpa [Chunk.extra?] using h
    rw [quotedRest_of_shorter hm hn, quotedChunk, hm]
  · cases h

/-- The longest operator in front of a text is the longest one in front of a shorter text that
still holds it. -/
theorem longest?_of_shorter {p : Punct} (hpre : cs' <+: cs)
    (h : Punct.longest? (a ++ cs) = some p) (hp : p.chars.length ≤ a.length) :
    Punct.longest? (a ++ cs') = some p := by
  rw [Punct.longest?, List.find?_eq_some_iff_append] at h ⊢
  obtain ⟨hchars, before, after, hall, hlonger⟩ := h
  have hin : p.chars <+: a :=
    List.prefix_of_prefix_length_le (List.isPrefixOf_iff_prefix.mp hchars)
      (List.prefix_append a cs) hp
  refine ⟨List.isPrefixOf_iff_prefix.mpr (hin.trans (List.prefix_append a cs')), before, after,
    hall, fun q hq => ?_⟩
  have hno := hlonger q hq
  simp only [Bool.not_eq_true', Bool.eq_false_iff, ne_eq, List.isPrefixOf_iff_prefix] at hno ⊢
  exact fun hq => hno (hq.trans ((List.prefix_append_right_inj a).mpr hpre))

def numberChunk (c : Char) (cs : List Char) : Chunk :=
  match cs with
  | x :: digits =>
    if c = '0' && (x == 'x' || x == 'X') then hexChunk digits else decimalChunk (c :: cs)
  | [] => decimalChunk (c :: cs)

theorem lexemeChunk_eq (c : Char) (cs : List Char) :
    lexemeChunk c cs =
      if c.isDigit then numberChunk c cs
      else if c = '.' && cs.head?.any Char.isDigit then decimalChunk (c :: cs)
      else if c = '"' then quotedChunk .string c cs
      else if c = '\'' then quotedChunk .char c cs
      else if Text.isIdentStart c then
        let n := countWhile Text.isIdentRest cs
        .lexeme n (wordKind (c :: cs.take n))
      else match Punct.longest? (c :: cs) with
        | some p => .lexeme (p.chars.length - 1) (.punct p)
        | none => .fault 0 (.unexpectedChar c) := by
  cases cs <;> rfl

theorem hexChunk_extra? {n : Nat} {ds : List Char} (h : (hexChunk ds).extra? = some n) : 2 ≤ n := by
  rw [hexChunk] at h
  split at h
  · cases h
  · simp only [Chunk.extra?, Option.some.injEq] at h
    omega

theorem numberChunk_of_shorter {c : Char} {n : Nat} (hpre : cs' <+: cs)
    (h : (numberChunk c (a ++ cs)).extra? = some n) (hn : n ≤ a.length) :
    numberChunk c (a ++ cs') = numberChunk c (a ++ cs) := by
  have hdecimal (h : (decimalChunk (c :: (a ++ cs))).extra? = some n) :
      decimalChunk (c :: (a ++ cs')) = decimalChunk (c :: (a ++ cs)) :=
    decimalChunk_of_shorter (a := c :: a) hpre h (Nat.lt_succ_of_le hn)
  cases a with
  | nil =>
    simp only [List.nil_append] at h hdecimal ⊢
    cases cs with
    | nil => rw [List.prefix_nil.mp hpre]
    | cons x ds =>
      rw [numberChunk] at h
      split at h
      · exact absurd (hexChunk_extra? h) (by simp only [List.length_nil] at hn; omega)
      · next hx =>
        rw [numberChunk.eq_1, if_neg hx, ← hdecimal h]
        cases cs' with
        | nil => rfl
        | cons y es =>
          obtain rfl : y = x := (List.cons_prefix_cons.mp hpre).1
          exact if_neg hx
  | cons x a =>
    rw [List.cons_append, numberChunk] at h
    rw [List.cons_append, List.cons_append, numberChunk, numberChunk]
    split
    · next hx =>
      rw [if_pos hx] at h
      exact hexChunk_of_shorter hpre h hn
    · next hx =>
      rw [if_neg hx] at h
      exact hdecimal h

theorem decimalChunk_dot_extra? {n : Nat} {ds : List Char} (hds : ds.head?.any Char.isDigit)
    (h : (decimalChunk ('.' :: ds)).extra? = some n) : 1 ≤ n := by
  obtain ⟨w, f, e, hparts⟩ := exists_hasParts h
  rw [hparts.chunk_eq, Chunk.extra?, Option.some.injEq] at h
  obtain ⟨rfl, rfl, -⟩ := hparts
  have hwhole : countWhile Char.isDigit ('.' :: ds) = 0 := rfl
  cases ds with
  | nil => simp at hds
  | cons d ds =>
    have hd : d.isDigit = true := by simpa using hds
    have hfraction : fractionLength ('.' :: d :: ds) = countWhile Char.isDigit ds + 2 := by
      rw [fractionLength, countWhile_cons, if_pos hd, Nat.add_comm]
    rw [hwhole, List.drop_zero, hfraction] at h
    omega

theorem lexemeChunk_of_shorter {c : Char} {n : Nat} (hpre : cs' <+: cs)
    (h : (lexemeChunk c (a ++ cs)).extra? = some n) (hn : n ≤ a.length) :
    lexemeChunk c (a ++ cs') = lexemeChunk c (a ++ cs) := by
  rw [lexemeChunk_eq] at h
  rw [lexemeChunk_eq, lexemeChunk_eq]
  by_cases hdigit : c.isDigit
  · rw [if_pos hdigit] at h ⊢
    rw [if_pos hdigit]
    exact numberChunk_of_shorter hpre h hn
  rw [if_neg hdigit] at h ⊢
  rw [if_neg hdigit]
  by_cases hdot : (c = '.' && (a ++ cs).head?.any Char.isDigit) = true
  · rw [if_pos hdot] at h ⊢
    obtain ⟨hc, hfirst⟩ := Bool.and_eq_true_iff.mp hdot
    obtain rfl := decide_eq_true_eq.mp hc
    have hpos := decimalChunk_dot_extra? hfirst h
    have hhead : (a ++ cs').head? = (a ++ cs).head? := by
      cases a with
      | nil => simp only [List.length_nil] at hn; omega
      | cons x a => rfl
    rw [hhead, if_pos hdot]
    exact decimalChunk_of_shorter (a := '.' :: a) hpre h (Nat.lt_succ_of_le hn)
  have hdot' : ¬ (c = '.' && (a ++ cs').head?.any Char.isDigit) = true := by
    rcases head?_of_shorter hpre a with hhead | hhead
    · simp [hhead]
    · rwa [hhead]
  rw [if_neg hdot] at h
  rw [if_neg hdot', if_neg hdot]
  split
  · next hq =>
    rw [if_pos hq] at h
    exact quotedChunk_of_shorter h hn
  rename_i hstring
  rw [if_neg hstring] at h
  split
  · next hq =>
    rw [if_pos hq] at h
    exact quotedChunk_of_shorter h hn
  rename_i hchar
  rw [if_neg hchar] at h
  split
  · next hident =>
    rw [if_pos hident] at h
    simp only [Chunk.extra?, Option.some.injEq] at h
    have hcount := countWhile_of_shorter (p := Text.isIdentRest) hpre (h.trans_le hn)
    simp only [hcount, List.take_append_of_le_length (h.trans_le hn)]
  rename_i hident
  rw [if_neg hident] at h
  cases hp : Punct.longest? (c :: (a ++ cs)) with
  | none =>
    rw [hp] at h
    cases h
  | some p =>
    simp only [hp, Chunk.extra?, Option.some.injEq] at h
    have hp' : Punct.longest? (c :: (a ++ cs')) = some p :=
      longest?_of_shorter (a := c :: a) hpre hp (by rw [List.length_cons]; omega)
    rw [hp']

/-- What opens a comment or hides a line break. -/
def opensGap (c : Char) (next : Option Char) : Bool :=
  (c == '\\' && next == some '\n') || (c == '/' && (next == some '/' || next == some '*'))

theorem chunk_of_not_opensGap {lineStart : Bool} {c : Char} {ds : List Char}
    (hlayout : ¬ isLayout c) (h : ¬ opensGap c ds.head?) :
    chunk lineStart c ds =
      if c = '#' && lineStart then .directive (directiveRest ds).1 (directiveRest ds).2
      else lexemeChunk c ds := by
  rw [chunk.eq_def, if_neg hlayout]
  split <;> first | rfl | simp [opensGap] at h

theorem chunk_blockComment (lineStart : Bool) (ds : List Char) :
    chunk lineStart '/' ('*' :: ds) = match commentLength? ds with
      | some n => .layout (1 + n)
      | none => .fault (1 + ds.length) .unterminatedComment := rfl

theorem opensGap_iff {c d : Char} {ds : List Char} : opensGap c (d :: ds).head? ↔
    c = '\\' ∧ d = '\n' ∨ c = '/' ∧ (d = '/' ∨ d = '*') := by
  simp [opensGap]

theorem pos_of_opensGap {lineStart : Bool} {c : Char} {ds : List Char} {n : Nat}
    (hgap : opensGap c ds.head?) (h : (chunk lineStart c ds).extra? = some n) : 0 < n := by
  cases ds with
  | nil => simp [opensGap] at hgap
  | cons d ds =>
    rcases opensGap_iff.mp hgap with ⟨rfl, rfl⟩ | ⟨rfl, rfl | rfl⟩
    · cases h
      exact Nat.one_pos
    · cases h
      omega
    · rw [chunk_blockComment] at h
      split at h
      · cases h
        omega
      · cases h

theorem gap_of_shorter {lineStart : Bool} {c : Char} {n : Nat} (hpre : cs' <+: cs)
    (hgap : opensGap c (a ++ cs).head?) (h : (chunk lineStart c (a ++ cs)).extra? = some n)
    (hn : n ≤ a.length) : chunk lineStart c (a ++ cs') = chunk lineStart c (a ++ cs) := by
  have hpos := pos_of_opensGap hgap h
  cases a with
  | nil => simp only [List.length_nil] at hn; omega
  | cons d a =>
    simp only [List.cons_append, List.length_cons] at h hgap hn ⊢
    rcases opensGap_iff.mp hgap with ⟨rfl, rfl⟩ | ⟨rfl, rfl | rfl⟩
    · rfl
    · have hlen : 1 + countWhile (· != '\n') (a ++ cs) = n := Option.some.inj h
      have hcount := countWhile_of_shorter (p := (· != '\n')) (a := a) hpre (by omega)
      show Chunk.layout (1 + countWhile _ (a ++ cs')) = .layout (1 + countWhile _ (a ++ cs))
      rw [hcount]
    · rw [chunk_blockComment] at h
      rw [chunk_blockComment, chunk_blockComment]
      cases hm : commentLength? (a ++ cs) with
      | none =>
        rw [hm] at h
        cases h
      | some m =>
        simp only [hm, Chunk.extra?, Option.some.injEq] at h
        rw [commentLength?_of_shorter hm (by omega)]

/-- A chunk is the same where the text behind it is cut short. -/
theorem chunk_of_shorter {lineStart : Bool} {c : Char} {n : Nat} (hpre : cs' <+: cs)
    (h : (chunk lineStart c (a ++ cs)).extra? = some n) (hn : n ≤ a.length) :
    chunk lineStart c (a ++ cs') = chunk lineStart c (a ++ cs) := by
  by_cases hlayout : isLayout c
  · rw [chunk.eq_def, chunk.eq_def, if_pos hlayout, if_pos hlayout]
  by_cases hgap : opensGap c (a ++ cs).head?
  · exact gap_of_shorter hpre hgap h hn
  · have hgap' : ¬ opensGap c (a ++ cs').head? := by
      rcases head?_of_shorter hpre a with hhead | hhead
      · simp [hhead, opensGap]
      · rwa [hhead]
    rw [chunk_of_not_opensGap hlayout hgap] at h ⊢
    rw [chunk_of_not_opensGap hlayout hgap']
    split
    · next hhash =>
      rw [if_pos hhash] at h
      simp only [Chunk.extra?, Option.some.injEq] at h
      rw [directiveRest_of_shorter hpre (by omega)]
    · next hhash =>
      rw [if_neg hhash] at h
      exact lexemeChunk_of_shorter hpre h hn

end Locality

section Steps

def Chunk.token? (p : Position) (read : List Char) : Chunk → Option Token
  | .directive _ text =>
    if (Text.words text).head? = some "pragma".toList then
      some ⟨.pragma, String.ofList (Text.squeeze text), ⟨p, p.after read⟩⟩
    else none
  | .lexeme _ kind => some ⟨kind, String.ofList read, ⟨p, p.after read⟩⟩
  | _ => none

def Chunk.opensLine (lineStart : Bool) (read : List Char) : Chunk → Bool
  | .layout _ => lineStart || read.contains '\n'
  | .directive _ _ => true
  | _ => read.contains '\n'

variable {fuel n : Nat} {lineStart : Bool} {p : Position} {c : Char} {cs : List Char}

theorem scanFrom_of_extra (h : (chunk lineStart c cs).extra? = some n) :
    scanFrom (fuel + 1) lineStart p (c :: cs) =
      let k := chunk lineStart c cs
      let read := c :: cs.take n
      let s := scanFrom fuel (k.opensLine lineStart read) (p.after read) (cs.drop n)
      ⟨(k.token? p read).toList ++ s.tokens, s.ending⟩ := by
  rw [scanFrom]
  cases hk : chunk lineStart c cs with
  | layout m =>
    rw [hk] at h
    cases h
    rfl
  | directive m text =>
    rw [hk] at h
    cases h
    simp only [Chunk.token?, Chunk.opensLine]
    split <;> rfl
  | lexeme m kind =>
    rw [hk] at h
    cases h
    rfl
  | fault m cause =>
    rw [hk] at h
    cases h

theorem tokens_of_fault (h : (chunk lineStart c cs).extra? = none) :
    (scanFrom (fuel + 1) lineStart p (c :: cs)).tokens = [] := by
  rw [scanFrom]
  cases hk : chunk lineStart c cs with
  | fault m cause => rfl
  | layout m | directive m text | lexeme m kind =>
    rw [hk] at h
    cases h

theorem Chunk.span_token? {k : Chunk} {read : List Char} {t : Token}
    (h : k.token? p read = some t) :
    t.span = ⟨p, p.after read⟩ := by
  cases k with
  | layout | fault => cases h
  | lexeme => cases h; rfl
  | directive m text =>
    rw [token?] at h
    split at h
    · cases h; rfl
    · cases h

theorem Chunk.token?_erase (k : Chunk) (p q : Position) (read : List Char) :
    (k.token? p read).toList.map erase = (k.token? q read).toList.map erase := by
  cases k with
  | layout | fault | lexeme => rfl
  | directive m text =>
    rw [token?, token?]
    split <;> rfl

theorem chunk_of_cut {text rest : List Char} (h : (chunk lineStart c cs).extra? = some n)
    (hcut : cs.drop n = text ++ rest) :
    chunk lineStart c (cs.take n ++ text) = chunk lineStart c cs ∧
      (cs.take n ++ text).take n = cs.take n ∧ (cs.take n ++ text).drop n = text := by
  by_cases hn : n ≤ cs.length
  · have hlen : (cs.take n).length = n := List.length_take_of_le hn
    refine ⟨?_, List.take_left' hlen, List.drop_left' hlen⟩
    rw [← List.take_append_drop n cs, hcut] at h
    have hlocal := chunk_of_shorter (List.prefix_append text rest) h (Nat.le_of_eq hlen.symm)
    rw [hlocal, ← hcut, List.take_append_drop]
  · rw [List.drop_eq_nil_of_le (by omega)] at hcut
    obtain ⟨rfl, rfl⟩ := List.append_eq_nil_iff.mp hcut.symm
    rw [List.append_nil, List.take_of_length_le (by omega)]
    exact ⟨rfl, List.take_of_length_le (by omega), List.drop_eq_nil_of_le (by omega)⟩

def ending : Except LexError Token := .ok ⟨.eof, "", .none⟩

/-- A text is cut behind its first tokens `us`: the piece before the cut ends with the last of
them, and has no other tokens by itself. -/
structure Cuts (lineStart : Bool) (p : Position) (cs : List Char) (us : List Token)
    (text rest : List Char) : Prop where
  split : cs = text ++ rest
  nil : us = [] → text = []
  last : ∀ u ∈ us.getLast?, u.span.last = p.after text
  scans : ∀ fuel q, text.length ≤ fuel →
    (scanFrom fuel lineStart q text).erase = ⟨us.map erase, ending⟩

theorem cuts_nil (lineStart : Bool) (p : Position) (cs : List Char) :
    Cuts lineStart p cs [] [] cs where
  split := rfl
  nil _ := rfl
  last := by simp
  scans fuel q _ := by cases fuel <;> rfl

theorem Cuts.cons {us : List Token} {text rest : List Char}
    (hextra : (chunk lineStart c cs).extra? = some n)
    (h : Cuts ((chunk lineStart c cs).opensLine lineStart (c :: cs.take n))
      (p.after (c :: cs.take n)) (cs.drop n) us text rest)
    (hus : ((chunk lineStart c cs).token? p (c :: cs.take n)).toList ++ us ≠ []) :
    Cuts lineStart p (c :: cs) (((chunk lineStart c cs).token? p (c :: cs.take n)).toList ++ us)
      (c :: cs.take n ++ text) rest where
  split := by
    rw [List.cons_append, List.cons_append, List.append_assoc, ← h.split, List.take_append_drop]
  nil hnil := absurd hnil hus
  last u hu := by
    by_cases hnil : us = []
    · subst hnil
      rw [List.append_nil, Option.mem_def] at hu
      rw [h.nil rfl, List.append_nil]
      cases ht : (chunk lineStart c cs).token? p (c :: cs.take n) with
      | none =>
        rw [ht] at hu
        cases hu
      | some t =>
        rw [ht, Option.toList_some, List.getLast?_singleton] at hu
        obtain rfl := Option.some.inj hu
        rw [Chunk.span_token? ht]
    · rw [List.getLast?_append_of_ne_nil _ hnil] at hu
      rw [Position.after_append, h.last u hu]
  scans fuel q hfuel := by
    obtain ⟨hchunk, htake, hdrop⟩ := chunk_of_cut hextra h.split
    rw [List.cons_append, List.length_cons] at hfuel
    obtain ⟨fuel, rfl⟩ : ∃ m, fuel = m + 1 := ⟨fuel - 1, by omega⟩
    have hrest := h.scans fuel (q.after (c :: cs.take n))
      (by rw [List.length_append] at hfuel; omega)
    rw [List.cons_append, scanFrom_of_extra (hchunk ▸ hextra)]
    simp only [Scan.erase, Scan.mk.injEq] at hrest
    simp only [hchunk, htake, hdrop, Scan.erase, List.map_append, hrest, Scan.mk.injEq, and_true,
      List.append_left_inj]
    exact Chunk.token?_erase _ q p _

/-- The first tokens of a text are those of a piece of it that ends with the last of them. -/
theorem exists_cuts (fuel : Nat) (lineStart : Bool) (p : Position) (cs : List Char)
    {us post : List Token} (h : (scanFrom fuel lineStart p cs).tokens = us ++ post) :
    ∃ text rest, Cuts lineStart p cs us text rest := by
  induction fuel generalizing lineStart p cs us with
  | zero =>
    obtain rfl : us = [] := by cases cs <;> exact (List.append_eq_nil_iff.mp h.symm).1
    exact ⟨_, _, cuts_nil lineStart p cs⟩
  | succ fuel ih =>
    by_cases hus : us = []
    · exact hus ▸ ⟨_, _, cuts_nil lineStart p cs⟩
    cases cs with
    | nil => exact absurd (List.append_eq_nil_iff.mp h.symm).1 hus
    | cons c cs =>
      cases hextra : (chunk lineStart c cs).extra? with
      | none =>
        rw [tokens_of_fault hextra] at h
        exact absurd (List.append_eq_nil_iff.mp h.symm).1 hus
      | some n =>
        rw [scanFrom_of_extra hextra] at h
        cases ht : (chunk lineStart c cs).token? p (c :: cs.take n) with
        | none =>
          simp only [ht, Option.toList_none, List.nil_append] at h
          obtain ⟨text, rest, hcut⟩ := ih _ _ _ h
          have hcons := hcut.cons hextra (by rwa [ht])
          rw [ht] at hcons
          exact ⟨_, _, hcons⟩
        | some t =>
          obtain ⟨u, us, rfl⟩ := List.exists_cons_of_ne_nil hus
          simp only [ht, Option.toList_some, List.cons_append, List.nil_append,
            List.cons.injEq] at h
          obtain ⟨rfl, h⟩ := h
          obtain ⟨text, rest, hcut⟩ := ih _ _ _ h
          have hcons := hcut.cons hextra (by simp [ht])
          rw [ht] at hcons
          exact ⟨_, _, hcons⟩

/-- A token opens a text: it is the chunk in front of it. -/
structure Opens (lineStart : Bool) (p : Position) (cs : List Char) (t : Token)
    (post : List Token) : Prop where
  split : ∃ c ds n, cs = c :: ds ∧ (chunk lineStart c ds).extra? = some n ∧
    (chunk lineStart c ds).token? p (c :: ds.take n) = some t
  scans : ∃ fuel, (scanFrom fuel lineStart p cs).tokens = t :: post

theorem exists_opens (fuel : Nat) (lineStart : Bool) (p : Position) (cs : List Char) {t : Token}
    {pre post : List Token} (h : (scanFrom fuel lineStart p cs).tokens = pre ++ t :: post) :
    ∃ before rest lineStart', cs = before ++ rest ∧
      Opens lineStart' (p.after before) rest t post := by
  induction fuel generalizing lineStart p cs pre with
  | zero => cases cs <;> exact absurd h.symm (List.append_ne_nil_of_right_ne_nil _ (by simp))
  | succ fuel ih =>
    cases cs with
    | nil => exact absurd h.symm (List.append_ne_nil_of_right_ne_nil _ (by simp))
    | cons c cs =>
      cases hextra : (chunk lineStart c cs).extra? with
      | none =>
        rw [tokens_of_fault hextra] at h
        exact absurd h.symm (List.append_ne_nil_of_right_ne_nil _ (by simp))
      | some n =>
        have hbehind {pre' : List Token} (h : (scanFrom fuel
            ((chunk lineStart c cs).opensLine lineStart (c :: cs.take n)) (p.after (c :: cs.take n))
            (cs.drop n)).tokens = pre' ++ t :: post) :
            ∃ before rest lineStart', c :: cs = before ++ rest ∧
              Opens lineStart' (p.after before) rest t post := by
          obtain ⟨before, rest, lineStart', hsplit, hopens⟩ := ih _ _ _ h
          refine ⟨c :: cs.take n ++ before, rest, lineStart', ?_, ?_⟩
          · rw [List.append_assoc, ← hsplit, List.cons_append, List.take_append_drop]
          · rwa [Position.after_append]
        have hscan := h
        rw [scanFrom_of_extra hextra] at h
        cases ht : (chunk lineStart c cs).token? p (c :: cs.take n) with
        | none =>
          simp only [ht, Option.toList_none, List.nil_append] at h
          exact hbehind h
        | some u =>
          simp only [ht, Option.toList_some, List.cons_append, List.nil_append] at h
          cases pre with
          | nil =>
            obtain ⟨rfl, -⟩ := List.cons.inj h
            exact ⟨[], c :: cs, lineStart, rfl, ⟨c, cs, n, rfl, hextra, ht⟩, fuel + 1, hscan⟩
          | cons v pre => exact hbehind (List.cons.inj h).2

theorem lexemeChunk_hash (cs : List Char) :
    lexemeChunk '#' cs = .fault 0 (.unexpectedChar '#') := by
  have hnone : Punct.longest? ('#' :: cs) = none := rfl
  rw [lexemeChunk_eq, hnone]
  rfl

/-- A word of the text is read as such also where no token stands before it on its line. -/
theorem chunk_of_lexeme {kind : Kind} (h : chunk lineStart c cs = .lexeme n kind) :
    chunk true c cs = .lexeme n kind := by
  by_cases hlayout : isLayout c
  · rw [chunk.eq_def, if_pos hlayout] at h
    cases h
  by_cases hgap : opensGap c cs.head?
  · cases cs with
    | nil => simp [opensGap] at hgap
    | cons d ds => rcases opensGap_iff.mp hgap with ⟨rfl, rfl⟩ | ⟨rfl, rfl | rfl⟩ <;> exact h
  · rw [chunk_of_not_opensGap hlayout hgap] at h ⊢
    split at h
    · cases h
    · have hhash : c ≠ '#' := by
        rintro rfl
        rw [lexemeChunk_hash] at h
        cases h
      simpa [hhash] using h

theorem Opens.of_kind {t : Token} {post : List Token} (h : Opens lineStart p cs t post)
    (ht : t.kind ≠ .pragma) : Opens true p cs t post := by
  obtain ⟨⟨c, ds, n, rfl, hextra, htoken⟩, fuel, hscan⟩ := h
  obtain ⟨kind, hchunk⟩ : ∃ kind, chunk lineStart c ds = .lexeme n kind := by
    cases hk : chunk lineStart c ds with
    | layout | fault =>
      rw [hk] at htoken
      cases htoken
    | lexeme m kind =>
      rw [hk] at hextra
      cases hextra
      exact ⟨kind, rfl⟩
    | directive m text =>
      rw [hk, Chunk.token?] at htoken
      split at htoken
      · cases htoken
        exact absurd rfl ht
      · cases htoken
  have hchunk' := chunk_of_lexeme hchunk
  refine ⟨⟨c, ds, n, rfl, by rw [hchunk']; rfl, by rwa [hchunk', ← hchunk]⟩, fuel, ?_⟩
  cases fuel with
  | zero => cases hscan
  | succ fuel =>
    rw [scanFrom, hchunk']
    rwa [scanFrom, hchunk] at hscan

end Steps

/-- The text under a span of tokens that open with no pragma has these tokens and no others. -/
theorem scan_snippet {source : String} {pre us post : List Token} {s : Span}
    (h : (scan source).tokens = pre ++ us ++ post) (hs : Covers s us)
    (hpragma : ∀ t ∈ us.head?, t.kind ≠ .pragma) :
    ∃ text, s.snippet? source = some text ∧ (scan text).erase = ⟨us.map erase, ending⟩ := by
  obtain ⟨t, ht, u, hu, rfl⟩ := hs
  obtain ⟨us', rfl⟩ := List.head?_eq_some_iff.mp ht
  rw [List.append_assoc, List.cons_append] at h
  obtain ⟨before, rest, lineStart, hsource, hopens⟩ := exists_opens _ _ _ _ h
  obtain ⟨⟨c, ds, n, rfl, hextra, htoken⟩, fuel, hscan⟩ := hopens.of_kind (hpragma t ht)
  rw [← List.cons_append] at hscan
  obtain ⟨text, after, hcut⟩ := exists_cuts _ _ _ _ hscan
  have hstart : Position.start.after before = .behind before := Position.after_behind [] before
  refine ⟨String.ofList text, ?_, ?_⟩
  · have hfirst : t.span.first = .behind before := by rw [Chunk.span_token? htoken, hstart]
    rw [hfirst, hcut.last u hu, hstart, Position.after_behind]
    apply Span.snippet?_behind
    rw [hsource, List.append_assoc, ← hcut.split]
  · rw [scan, String.toList_ofList]
    exact hcut.scans _ _ (Nat.le_refl _)

end Token

end LoopLegality

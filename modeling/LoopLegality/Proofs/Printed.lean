import LoopLegality.Grammar.Expression
import Mathlib.Tactic.Common
import Mathlib.Data.List.Forall2

namespace LoopLegality

theorem Keyword.ofSpelling?_spelling (k : Keyword) : Keyword.ofSpelling? k.spelling = some k := by
  cases k <;> rfl

/-- A word of printed text. -/
inductive Lexeme where
  | number (n : Nat)
  | name (s : String)
  | word (k : Keyword)
  | punct (p : Punct)
deriving DecidableEq

/-- The spelling of an identifier that is no reserved word. -/
def IsName (s : String) : Prop :=
  (∃ c cs, s.toList = c :: cs ∧ Text.isIdentStart c = true ∧ ∀ d ∈ cs, Text.isIdentRest d = true) ∧
    Keyword.ofSpelling? s = none

namespace Lexeme

def kind : Lexeme → Token.Kind
  | number _ => .integer
  | name _ => .identifier
  | word k => .word k
  | punct p => .punct p

def text : Lexeme → String
  | number n => toString n
  | name s => s
  | word k => k.spelling
  | punct p => p.spelling

def WellSpelled : Lexeme → Prop
  | name s => IsName s
  | _ => True

def spaced (ws : List Lexeme) : String := " ".intercalate (ws.map text)

/-- The token has the kind and the text of the word. -/
def Spells (w : Lexeme) (t : Token) : Prop := t.kind = w.kind ∧ t.lexeme = w.text

end Lexeme

theorem ne_of_holds {p : Char → Bool} {c d : Char} (hc : p c = true) (hd : p d = false) :
    c ≠ d := by
  rintro rfl
  rw [hc] at hd
  cases hd

namespace Literal

theorem digitValue?_digitChar : ∀ d < 10, digitValue? 10 (Nat.digitChar d) = some d := by decide

theorem natOf?_toDigits (n : Nat) : natOf? 10 (Nat.toDigits 10 n) = some n := by
  induction n using Nat.strongRecOn with
  | ind n ih =>
    by_cases hn : n < 10
    · rw [Nat.toDigits_of_lt_base hn]
      simp [natOf?, digitValue?_digitChar n hn]
    · have hquotient := ih (n / 10) (by omega)
      have hlast := digitValue?_digitChar (n % 10) (by omega)
      rw [natOf?] at hquotient
      rw [Nat.toDigits_of_base_le (by omega) (by omega), natOf?, List.foldlM_append, hquotient]
      simp only [Option.bind_eq_bind, Option.bind_some, List.foldlM_cons, hlast, List.foldlM_nil]
      simp
      omega

theorem head_toDigits {n : Nat} (hn : 0 < n) : (Nat.toDigits 10 n).head? ≠ some '0' := by
  induction n using Nat.strongRecOn with
  | ind n ih =>
    by_cases hlt : n < 10
    · rw [Nat.toDigits_of_lt_base hlt]
      have : ∀ d < 10, 0 < d → [Nat.digitChar d].head? ≠ some '0' := by decide
      exact this n hlt hn
    · rw [Nat.toDigits_of_base_le (by omega) (by omega),
        List.head?_append_of_ne_nil _ Nat.toDigits_ne_nil]
      exact ih (n / 10) (by omega) (by omega)

theorem magnitude?_of_head {cs : List Char} (h : cs.head? ≠ some '0') :
    magnitude? cs = natOf? 10 cs := by
  unfold magnitude?
  split <;> first | rfl | exact absurd rfl h

theorem trimEnd_of_forall {p : Char → Bool} {cs : List Char} (h : ∀ c ∈ cs, p c = false) :
    trimEnd p cs = cs := by
  have hkeep : cs.reverse.dropWhile p = cs.reverse := by
    cases hrev : cs.reverse with
    | nil => rfl
    | cons c ds =>
      have hc : c ∈ cs := List.mem_reverse.mp (hrev ▸ List.mem_cons_self)
      exact List.dropWhile_cons_of_neg (by simp [h c hc])
  rw [trimEnd, hkeep, List.reverse_reverse]

theorem integer?_toString_eq (n : Nat) : integer? (toString n) = Word.fit? n := by
  have htext : (toString n).toList = Nat.toDigits 10 n := String.toList_ofList
  have htrim : trimEnd isIntegerSuffix (Nat.toDigits 10 n) = Nat.toDigits 10 n := by
    refine trimEnd_of_forall fun c hc => ?_
    have hdigit : c.isDigit = true := Nat.isDigit_of_mem_toDigits (by decide) (by decide) hc
    have hne (d : Char) (hd : d.isDigit = false) : c ≠ d := ne_of_holds hdigit hd
    simp [isIntegerSuffix, hne 'u' (by decide), hne 'U' (by decide), hne 'l' (by decide),
      hne 'L' (by decide)]
  have hmagnitude : magnitude? (Nat.toDigits 10 n) = some n := by
    cases n with
    | zero => rfl
    | succ n => rw [magnitude?_of_head (head_toDigits (by omega)), natOf?_toDigits]
  rw [integer?, htext, htrim, hmagnitude]
  rfl

theorem integer?_toString {n : Nat} (h : Word.Fits n) : integer? (toString n) = some (n : Int) := by
  rw [integer?_toString_eq, Word.fit?_of_fits h]

end Literal

namespace Token

open Lexeme

def Parted (cs : List Char) : Prop := cs = [] ∨ ∃ ds, cs = ' ' :: ds

/-- A text that neither a name nor a number before it goes on with. -/
def Severed (cs : List Char) : Prop := ∀ c ∈ cs.head?, Text.isIdentRest c = false ∧ c ≠ '.'

theorem severed_cons {c : Char} {cs : List Char} (hc : Text.isIdentRest c = false)
    (hdot : c ≠ '.') : Severed (c :: cs) := by
  intro d hd
  cases hd
  exact ⟨hc, hdot⟩

theorem Parted.severed {cs : List Char} (h : Parted cs) : Severed cs := by
  obtain rfl | ⟨ds, rfl⟩ := h
  · intro c hc
    cases hc
  · exact severed_cons (by decide) (by decide)

theorem takeWhile_of_severed {p : Char → Bool} {cs rest : List Char} (h : ∀ c ∈ cs, p c = true)
    (hp : ∀ c, p c = true → Text.isIdentRest c = true) (hrest : Severed rest) :
    (cs ++ rest).takeWhile p = cs := by
  rw [List.takeWhile_append_of_pos h]
  cases rest with
  | nil => simp
  | cons d rest =>
    have hd : ¬ p d = true := fun hd => by
      have := hp d hd
      rw [(hrest d rfl).1] at this
      cases this
    rw [List.takeWhile_cons_of_neg hd, List.append_nil]

theorem isDigit_of_isIdentStart {c : Char} (h : Text.isIdentStart c = true) :
    c.isDigit = false := by
  by_contra hd
  have halpha : c.isAlpha = (decide ('A'.val ≤ c.val ∧ c.val ≤ 'Z'.val) ||
      decide ('a'.val ≤ c.val) && decide (c.val ≤ 'z'.val)) := rfl
  simp only [Text.isIdentStart, halpha, Char.isDigit, Bool.not_eq_false, Bool.and_eq_true,
    Bool.or_eq_true, decide_eq_true_eq, beq_iff_eq, UInt32.le_iff_toNat_le] at h hd
  obtain ⟨h₁, h₂⟩ := hd
  have h₁ : 48 ≤ c.toNat := h₁
  have h₂ : c.toNat ≤ 57 := h₂
  obtain (rfl | (⟨h, -⟩ | ⟨h, -⟩)) | ⟨h, -⟩ := h
  · exact absurd h₂ (by decide)
  · have h : 65 ≤ c.toNat := h
    omega
  · have h : 97 ≤ c.toNat := h
    omega
  · omega

theorem chunk_of_plain {lineStart : Bool} {c : Char} {cs : List Char} (hl : isLayout c = false)
    (hb : c ≠ '\\') (hs : c ≠ '/') (hh : c ≠ '#') : chunk lineStart c cs = lexemeChunk c cs := by
  rw [chunk.eq_def, if_neg (by simp [hl])]
  split <;> simp_all

theorem chunk_of_isIdentStart {lineStart : Bool} {c : Char} {cs rest : List Char}
    (hc : Text.isIdentStart c = true) (hcs : ∀ d ∈ cs, Text.isIdentRest d = true)
    (hrest : Severed rest) :
    chunk lineStart c (cs ++ rest) = .lexeme cs.length (wordKind (c :: cs)) := by
  have hne (d : Char) (hd : Text.isIdentStart d = false) : c ≠ d := ne_of_holds hc hd
  have hl : isLayout c = false := by
    simp [isLayout, hne ' ' (by decide), hne '\t' (by decide), hne '\r' (by decide),
      hne '\n' (by decide), hne '\x0c' (by decide)]
  have hn : countWhile Text.isIdentRest (cs ++ rest) = cs.length := by
    rw [countWhile, takeWhile_of_severed hcs (fun _ h => h) hrest]
  rw [chunk_of_plain hl (hne _ (by decide)) (hne _ (by decide)) (hne _ (by decide)),
    lexemeChunk.eq_def, if_neg (by simp [isDigit_of_isIdentStart hc]),
    if_neg (by simp [hne '.' (by decide)]),
    if_neg (hne _ (by decide)), if_neg (hne _ (by decide)), if_pos hc]
  simp only [hn, List.take_left]

theorem chunk_of_punct (p : Punct) {lineStart : Bool} {rest : List Char} (hrest : Parted rest) :
    ∃ c cs, p.chars = c :: cs ∧ chunk lineStart c (cs ++ rest) = .lexeme cs.length (.punct p) := by
  obtain rfl | ⟨ds, rfl⟩ := hrest
  · cases p <;> exact ⟨_, _, rfl, rfl⟩
  · cases p <;> exact ⟨_, _, rfl, rfl⟩

theorem isIdentRest_of_isDigit {c : Char} (h : c.isDigit = true) : Text.isIdentRest c = true := by
  rw [Text.isIdentRest, h, Bool.or_true, Bool.true_or]

theorem Severed.ne {cs : List Char} (h : Severed (c :: cs)) {d : Char}
    (hd : Text.isIdentRest d = true) : c ≠ d :=
  (ne_of_holds hd (h c rfl).1).symm

theorem decimalChunk_of_severed {cs rest : List Char} (hcs : ∀ d ∈ cs, d.isDigit = true)
    (hrest : Severed rest) : decimalChunk (cs ++ rest) = .lexeme (cs.length - 1) .integer := by
  have hn : countWhile Char.isDigit (cs ++ rest) = cs.length := by
    rw [countWhile, takeWhile_of_severed hcs (fun _ => isIdentRest_of_isDigit) hrest]
  have hdrop : (cs ++ rest).drop cs.length = rest := List.drop_left
  simp only [decimalChunk, hn, hdrop]
  cases rest with
  | nil => simp [exponentLength, suffixLength, countWhile]
  | cons d rest =>
    have hdot : d ≠ '.' := (hrest d rfl).2
    have hne (e : Char) (he : Text.isIdentRest e = true) : d ≠ e := hrest.ne he
    simp [hdot, exponentLength, suffixLength, countWhile, hne 'e' (by decide),
      hne 'E' (by decide), hne 'u' (by decide), hne 'U' (by decide), hne 'l' (by decide),
      hne 'L' (by decide)]

theorem chunk_of_digits {lineStart : Bool} {c : Char} {cs rest : List Char} (hc : c.isDigit = true)
    (hcs : ∀ d ∈ cs, d.isDigit = true) (hrest : Severed rest) :
    chunk lineStart c (cs ++ rest) = .lexeme cs.length .integer := by
  have hne (d : Char) (hd : d.isDigit = false) : c ≠ d := ne_of_holds hc hd
  have hl : isLayout c = false := by
    simp [isLayout, hne ' ' (by decide), hne '\t' (by decide), hne '\r' (by decide),
      hne '\n' (by decide), hne '\x0c' (by decide)]
  have hdecimal : decimalChunk (c :: (cs ++ rest)) = .lexeme cs.length .integer :=
    decimalChunk_of_severed (List.forall_mem_cons.mpr ⟨hc, hcs⟩) hrest
  rw [chunk_of_plain hl (hne _ (by decide)) (hne _ (by decide)) (hne _ (by decide)),
    lexemeChunk.eq_def, if_pos hc]
  split
  · next x digits hx =>
    have hnot (d : Char) (hd : d.isDigit = false) (hrest' : Text.isIdentRest d = true) : x ≠ d := by
      cases cs with
      | nil =>
        obtain rfl : rest = x :: digits := hx
        exact hrest.ne hrest'
      | cons e cs =>
        rw [← (List.cons.inj hx).1]
        exact ne_of_holds (hcs e List.mem_cons_self) hd
    have hx' : ¬ (c = '0' && (x == 'x' || x == 'X')) = true := by
      simp [hnot 'x' (by decide) (by decide), hnot 'X' (by decide) (by decide)]
    rw [if_neg hx', hdecimal]
  · exact hdecimal

theorem wordKind_spelling (k : Keyword) : wordKind k.spelling.toList = .word k := by
  rw [wordKind, String.ofList_toList, k.ofSpelling?_spelling]

theorem chunk_of_keyword (k : Keyword) {lineStart : Bool} {rest : List Char}
    (hrest : Severed rest) :
    ∃ c cs, k.spelling.toList = c :: cs ∧
      chunk lineStart c (cs ++ rest) = .lexeme cs.length (.word k) := by
  obtain ⟨c, cs, hk, hc, hcs⟩ : ∃ c cs, k.spelling.toList = c :: cs ∧ Text.isIdentStart c = true ∧
      ∀ d ∈ cs, Text.isIdentRest d = true := by
    cases k <;> exact ⟨_, _, rfl, by decide, List.all_eq_true.mp (by decide)⟩
  exact ⟨c, cs, hk, by rw [chunk_of_isIdentStart hc hcs hrest, ← hk, wordKind_spelling]⟩

/-- The word is one chunk of its kind where `rest` follows it. -/
def Apart (w : Lexeme) (rest : List Char) : Prop :=
  ∀ lineStart, ∃ c cs, w.text.toList = c :: cs ∧
    chunk lineStart c (cs ++ rest) = .lexeme cs.length w.kind

theorem apart_number (n : Nat) {rest : List Char} (hrest : Severed rest) :
    Apart (number n) rest := by
  intro lineStart
  have htext : (number n).text.toList = Nat.toDigits 10 n := String.toList_ofList
  have hdigits : ∀ c ∈ Nat.toDigits 10 n, c.isDigit = true := fun c hc =>
    Nat.isDigit_of_mem_toDigits (by decide) (by decide) hc
  cases hn : Nat.toDigits 10 n with
  | nil => exact absurd hn Nat.toDigits_ne_nil
  | cons c cs =>
    rw [hn, List.forall_mem_cons] at hdigits
    exact ⟨c, cs, htext.trans hn, chunk_of_digits hdigits.1 hdigits.2 hrest⟩

theorem apart_name {s : String} (hs : IsName s) {rest : List Char} (hrest : Severed rest) :
    Apart (name s) rest := by
  intro lineStart
  obtain ⟨⟨c, cs, hs, hc, hcs⟩, hk⟩ := hs
  refine ⟨c, cs, hs, ?_⟩
  rw [chunk_of_isIdentStart hc hcs hrest, ← hs, wordKind, String.ofList_toList, hk]
  rfl

/-- A word that ends or is followed by a space is one chunk of its kind. -/
theorem apart_of_parted {w : Lexeme} (hw : w.WellSpelled) {rest : List Char} (hrest : Parted rest) :
    Apart w rest := by
  cases w with
  | number n => exact apart_number n hrest.severed
  | name s => exact apart_name hw hrest.severed
  | word k => exact fun _ => chunk_of_keyword k hrest.severed
  | punct p =>
    intro lineStart
    obtain ⟨c, cs, hp, hchunk⟩ := chunk_of_punct p hrest
    exact ⟨c, cs, String.toList_ofList.trans hp, hchunk⟩

/-- The text is the words in order, each apart from what follows it. -/
inductive Laid : List Lexeme → List Char → Prop
  | nil : Laid [] []
  | space {ws : List Lexeme} {cs : List Char} (h : Laid ws cs) : Laid ws (' ' :: cs)
  | word {w : Lexeme} {ws : List Lexeme} {cs : List Char} (hw : Apart w cs) (h : Laid ws cs) :
      Laid (w :: ws) (w.text.toList ++ cs)

theorem laid_spaced {ws : List Lexeme} (hws : ∀ w ∈ ws, w.WellSpelled) :
    Laid ws (spaced ws).toList := by
  induction ws with
  | nil => exact .nil
  | cons w ws ih =>
    rw [List.forall_mem_cons] at hws
    cases ws with
    | nil =>
      have htext : (spaced [w]).toList = w.text.toList ++ [] := by simp [spaced]
      rw [htext]
      exact .word (apart_of_parted hws.1 (Or.inl rfl)) .nil
    | cons v ws =>
      have htext : (spaced (w :: v :: ws)).toList =
          w.text.toList ++ ' ' :: (spaced (v :: ws)).toList := by
        simp [spaced, String.toList_intercalate, List.intercalate]
      rw [htext]
      exact .word (apart_of_parted hws.1 (Or.inr ⟨_, rfl⟩)) (.space (ih hws.2))

theorem scanFrom_of_apart {w : Lexeme} {rest : List Char} (hw : Apart w rest) (fuel : Nat)
    (lineStart : Bool) (p : Position) :
    ∃ lineStart' q span, scanFrom (fuel + 1) lineStart p (w.text.toList ++ rest) =
      .cons ⟨w.kind, w.text, span⟩ (scanFrom fuel lineStart' q rest) := by
  obtain ⟨c, cs, htext, hchunk⟩ := hw lineStart
  have hread : String.ofList (c :: (cs ++ rest).take cs.length) = w.text := by
    rw [List.take_left, ← htext, String.ofList_toList]
  rw [htext, List.cons_append]
  simp only [scanFrom, hchunk, List.drop_left, hread]
  exact ⟨_, _, _, rfl⟩

theorem scanFrom_of_laid {ws : List Lexeme} {cs : List Char} (h : Laid ws cs) (fuel : Nat)
    (lineStart : Bool) (p : Position) (hfuel : cs.length ≤ fuel) :
    ∃ ts eof, scanFrom fuel lineStart p cs = ⟨ts, .ok eof⟩ ∧ eof.kind = .eof ∧
      List.Forall₂ Spells ws ts := by
  induction h generalizing fuel lineStart p with
  | nil => cases fuel <;> exact ⟨[], _, rfl, rfl, .nil⟩
  | @space ws cs h ih =>
    rw [List.length_cons] at hfuel
    obtain ⟨fuel, rfl⟩ : ∃ n, fuel = n + 1 := ⟨fuel - 1, by omega⟩
    exact ih fuel _ _ (by omega)
  | @word w ws cs hw h ih =>
    have hpos : 0 < w.text.toList.length := by
      obtain ⟨c, ds, htext, -⟩ := hw lineStart
      simp [htext]
    rw [List.length_append] at hfuel
    obtain ⟨fuel, rfl⟩ : ∃ n, fuel = n + 1 := ⟨fuel - 1, by omega⟩
    obtain ⟨lineStart', q, span, hscan₁⟩ := scanFrom_of_apart hw fuel lineStart p
    obtain ⟨ts, eof, hscan, heof, hspell⟩ := ih fuel lineStart' q (by omega)
    rw [hscan₁, hscan]
    exact ⟨_, eof, rfl, heof, .cons ⟨rfl, rfl⟩ hspell⟩

/-- A text laid out in words is scanned into them. -/
theorem scan_of_laid {ws : List Lexeme} {text : String} (h : Laid ws text.toList) :
    ∃ ts eof, scan text = ⟨ts, .ok eof⟩ ∧ eof.kind = .eof ∧ List.Forall₂ Spells ws ts :=
  scanFrom_of_laid h _ true .start (Nat.le_refl _)

end Token

end LoopLegality

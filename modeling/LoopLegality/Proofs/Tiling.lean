import LoopLegality.Token.Scan
import Mathlib.Data.List.Infix
import Mathlib.Tactic.Common

namespace LoopLegality

def byteLength : List Char → Nat
  | [] => 0
  | c :: cs => c.utf8Size + byteLength cs

@[simp] theorem byteLength_nil : byteLength [] = 0 := rfl

@[simp] theorem byteLength_cons (c : Char) (cs : List Char) :
    byteLength (c :: cs) = c.utf8Size + byteLength cs :=
  rfl

@[simp] theorem byteLength_append (cs ds : List Char) :
    byteLength (cs ++ ds) = byteLength cs + byteLength ds := by
  induction cs with
  | nil => simp
  | cons c cs ih => simp [ih, Nat.add_assoc]

theorem byteLength_pos {cs : List Char} (h : cs ≠ []) : 0 < byteLength cs := by
  cases cs with
  | nil => exact absurd rfl h
  | cons c cs => exact Nat.lt_of_lt_of_le c.utf8Size_pos (Nat.le_add_right _ _)

namespace Position

/-- The place right behind a text that begins at the start: one line more than it has line
breaks, and one column more than the characters since the last of them. -/
def behind (cs : List Char) : Position :=
  ⟨1 + cs.count '\n', 1 + (cs.reverse.takeWhile (· != '\n')).length, byteLength cs⟩

theorem next_behind (cs : List Char) (c : Char) : (behind cs).next c = behind (cs ++ [c]) := by
  by_cases hc : c = '\n'
  · simp [next, behind, hc, Nat.add_assoc]
  · simp [next, behind, hc, Nat.add_comm]

theorem after_behind (cs ds : List Char) : (behind cs).after ds = behind (cs ++ ds) := by
  induction ds generalizing cs with
  | nil => simp [after]
  | cons d ds ih =>
    have hcons : (behind cs).after (d :: ds) = ((behind cs).next d).after ds := rfl
    rw [hcons, next_behind, ih]
    simp

theorem line_behind_le (cs ds : List Char) : (behind cs).line ≤ (behind (cs ++ ds)).line := by
  simp [behind]

theorem line_behind_lt {ds : List Char} (cs : List Char) (h : '\n' ∈ ds) :
    (behind cs).line < (behind (cs ++ ds)).line := by
  have hpos : 0 < ds.count '\n' := List.count_pos_iff.mpr h
  simp only [behind, List.count_append]
  omega

end Position

namespace Span

theorem dropBytes_byteLength (cs ds : List Char) :
    dropBytes (byteLength cs) (cs ++ ds) = some ds := by
  induction cs with
  | nil => cases ds <;> rfl
  | cons c cs ih =>
    obtain ⟨n, hn⟩ : ∃ n, c.utf8Size + byteLength cs = n + 1 :=
      ⟨_, (Nat.succ_pred_eq_of_pos (Nat.add_pos_left c.utf8Size_pos _)).symm⟩
    have hrest : n + 1 - c.utf8Size = byteLength cs := by omega
    rw [byteLength_cons, hn, List.cons_append, dropBytes, if_pos (by omega), hrest, ih]

theorem takeBytes_byteLength (cs ds : List Char) :
    takeBytes (byteLength cs) (cs ++ ds) = some cs := by
  induction cs with
  | nil => cases ds <;> rfl
  | cons c cs ih =>
    obtain ⟨n, hn⟩ : ∃ n, c.utf8Size + byteLength cs = n + 1 :=
      ⟨_, (Nat.succ_pred_eq_of_pos (Nat.add_pos_left c.utf8Size_pos _)).symm⟩
    have hrest : n + 1 - c.utf8Size = byteLength cs := by omega
    rw [byteLength_cons, hn, List.cons_append, takeBytes, if_pos (by omega), hrest, ih]
    rfl

theorem snippet?_behind {source : String} {before text rest : List Char}
    (h : source.toList = before ++ text ++ rest) :
    snippet? ⟨.behind before, .behind (before ++ text)⟩ source = some (String.ofList text) := by
  have hle : ¬ byteLength (before ++ text) < byteLength before := by
    rw [byteLength_append]
    omega
  have hlen : byteLength (before ++ text) - byteLength before = byteLength text := by
    rw [byteLength_append, Nat.add_sub_cancel_left]
  rw [List.append_assoc] at h
  simp only [snippet?, Position.behind, if_neg hle, hlen, h, dropBytes_byteLength,
    Option.bind_eq_bind, Option.bind_some, takeBytes_byteLength]
  rfl

end Span

namespace Token

/-- The rest of a directive behind its hash sign. It goes on to the end of its line, where a
line break right behind a backslash does not end the line. -/
structure IsDirective (line rest : List Char) : Prop where
  continued : ∀ a b, line = a ++ '\n' :: b → a.getLast? = some '\\'
  ends : rest = [] ∨ rest.head? = some '\n' ∧ line.getLast? ≠ some '\\'

def spliced : List Char → List Char
  | '\\' :: '\n' :: cs => ' ' :: spliced cs
  | c :: cs => c :: spliced cs
  | [] => []

def IsPragma (line : List Char) : Prop :=
  (Text.words (spliced line)).head? = some "pragma".toList

def OpensLine (past : List Token) (before : List Char) : Prop :=
  ∀ t ∈ past, t.span.first.line < (Position.behind before).line

/-- A piece of text that is no part of a token, behind the text `before` with the tokens `past`
and in front of the rest. -/
inductive IsGap (past : List Token) (before : List Char) : List Char → List Char → Prop
  | blank {c : Char} {rest : List Char} : c ∈ [' ', '\t', '\r', '\n', '\x0c'] →
      IsGap past before [c] rest
  | continuation {rest : List Char} : IsGap past before ['\\', '\n'] rest
  | lineComment {text rest : List Char} : '\n' ∉ text → (rest = [] ∨ rest.head? = some '\n') →
      IsGap past before ('/' :: '/' :: text) rest
  | blockComment {text rest : List Char} : ¬ ['*', '/'] <:+: text ++ ['*'] →
      IsGap past before ('/' :: '*' :: (text ++ ['*', '/'])) rest
  | directive {line rest : List Char} : IsDirective line rest → ¬ IsPragma line →
      OpensLine past before → IsGap past before ('#' :: line) rest

/-- A token stands for a piece of text: it spans it, it has its text as lexeme, and if it is a
pragma, the piece is a directive and the lexeme has its words. -/
structure StandsFor (t : Token) (before text rest : List Char) : Prop where
  span : t.span = ⟨.behind before, .behind (before ++ text)⟩
  lexeme : t.kind ≠ .pragma → t.lexeme = String.ofList text
  pragma : t.kind = .pragma → ∃ line, text = '#' :: line ∧ IsDirective line rest ∧
    IsPragma line ∧ t.lexeme = String.ofList (Text.squeeze (spliced line))

/-- A gap among all tokens of a text: those in front of it end before it begins, the others
begin when it has ended. -/
def HasGap (tokens : List Token) (before piece rest : List Char) : Prop :=
  ∃ past future, tokens = past ++ future ∧ IsGap past before piece rest ∧
    (∀ t ∈ past, t.span.last.offset ≤ byteLength before) ∧
    ∀ t ∈ future, byteLength (before ++ piece) ≤ t.span.first.offset

/-- The tokens `ts` and the gaps between them are, piece by piece, what follows the text
`before`, whose tokens are `past`. -/
inductive Tiles : List Token → List Char → List Token → List Char → Prop
  | done {past : List Token} {before : List Char} :
      Tiles past before [⟨.eof, "", ⟨.behind before, .behind before⟩⟩] []
  | gap {past ts : List Token} {before piece rest : List Char} : IsGap past before piece rest →
      Tiles past (before ++ piece) ts rest → Tiles past before ts (piece ++ rest)
  | token {past ts : List Token} {t : Token} {before text rest : List Char} :
      t.StandsFor before text rest → text ≠ [] → t.kind ≠ .eof →
      Tiles (past ++ [t]) (before ++ text) ts rest → Tiles past before (t :: ts) (text ++ rest)

section Chunks

theorem commentLength?_eq_some {cs : List Char} {n : Nat} (h : commentLength? cs = some n) :
    ∃ text rest, cs = text ++ '*' :: '/' :: rest ∧ n = text.length + 2 ∧
      ¬ ['*', '/'] <:+: text ++ ['*'] := by
  fun_induction commentLength? cs generalizing n with
  | case1 => cases h
  | case2 rest =>
    cases h
    refine ⟨[], rest, rfl, rfl, fun hin => ?_⟩
    simpa using hin.length_le
  | case3 c cs hne ih =>
    obtain ⟨m, hm, rfl⟩ := Option.map_eq_some_iff.mp h
    obtain ⟨text, rest, rfl, rfl, hin⟩ := ih hm
    refine ⟨c :: text, rest, rfl, by simp, fun hc => ?_⟩
    rw [List.cons_append, List.infix_cons_iff] at hc
    obtain hpre | hc := hc
    · -- The comment would have ended at its first character.
      cases text with
      | nil => simp at hpre
      | cons d text =>
        simp only [List.cons_append, List.cons_prefix_cons] at hpre
        obtain ⟨rfl, rfl, -⟩ := hpre
        exact hne (text ++ '*' :: '/' :: rest) rfl rfl
    · exact hin hc

theorem directiveRest_spec (cs : List Char) :
    ∃ line rest, cs = line ++ rest ∧ directiveRest cs = (line.length, spliced line) ∧
      IsDirective line rest := by
  fun_induction directiveRest cs with
  | case1 => exact ⟨[], [], rfl, rfl, by simp, Or.inl rfl⟩
  | case2 cs => exact ⟨[], '\n' :: cs, rfl, rfl, by simp, Or.inr ⟨rfl, by simp⟩⟩
  | case3 cs r ih =>
    obtain ⟨line, rest, rfl, hrest, hline⟩ := ih
    refine ⟨'\\' :: '\n' :: line, rest, rfl, ?_, ?_, ?_⟩
    · simp only [r, hrest]
      rfl
    · intro a b hab
      match a with
      | [] => simp at hab
      | [c] => simp [(List.cons.inj hab).1.symm]
      | c :: d :: a =>
        have hlast := hline.continued a b (List.cons.inj (List.cons.inj hab).2).2
        cases a with
        | nil => simp at hlast
        | cons e a => simpa [List.getLast?_cons] using hlast
    · refine hline.ends.imp_right fun ⟨hhead, hlast⟩ => ⟨hhead, ?_⟩
      cases line with
      | nil => simp
      | cons c line => simpa [List.getLast?_cons] using hlast
  | case4 c cs hbreak hpair r ih =>
    obtain ⟨line, rest, rfl, hrest, hline⟩ := ih
    have hspliced : spliced (c :: line) = c :: spliced line := by
      rw [spliced]
      rintro cs' rfl
      intro hc
      subst hc
      exact hpair (cs' ++ rest) rfl rfl
    refine ⟨c :: line, rest, rfl, ?_, ?_, ?_⟩
    · simp only [r, hrest, hspliced]
      rfl
    · intro a b hab
      cases a with
      | nil =>
        rw [List.nil_append] at hab
        exact absurd (List.cons.inj hab).1 hbreak
      | cons d a =>
        have hlast := hline.continued a b (List.cons.inj hab).2
        cases a with
        | nil => simp at hlast
        | cons e a => simpa [List.getLast?_cons] using hlast
    · refine hline.ends.imp_right fun ⟨hhead, hlast⟩ => ⟨hhead, ?_⟩
      cases line with
      | nil =>
        intro hc
        obtain ⟨ds, rfl⟩ : ∃ ds, rest = '\n' :: ds := by
          cases rest <;> simp_all
        exact hpair ds (by simpa using hc) rfl
      | cons d line => simpa [List.getLast?_cons] using hlast

def Chunk.IsPlain : Chunk → Prop
  | .lexeme _ kind => kind ≠ .eof ∧ kind ≠ .pragma
  | .fault _ _ => True
  | _ => False

theorem quotedChunk_isPlain {kind : Kind} (hkind : kind ≠ .eof ∧ kind ≠ .pragma) (quote : Char)
    (cs : List Char) : (quotedChunk kind quote cs).IsPlain := by
  unfold quotedChunk
  split
  · exact hkind
  · trivial

theorem hexChunk_isPlain (cs : List Char) : (hexChunk cs).IsPlain := by
  rw [hexChunk]
  split
  · trivial
  · exact ⟨nofun, nofun⟩

theorem numberKind_ne (isFloat : Prop) [Decidable isFloat] :
    (if isFloat then Kind.float else .integer) ≠ .eof ∧
      (if isFloat then Kind.float else .integer) ≠ .pragma := by
  split <;> simp

theorem decimalChunk_isPlain (cs : List Char) : (decimalChunk cs).IsPlain := by
  simp only [decimalChunk]
  split
  · trivial
  · exact numberKind_ne _

theorem wordKind_ne (cs : List Char) : wordKind cs ≠ .eof ∧ wordKind cs ≠ .pragma := by
  unfold wordKind
  split <;> simp

theorem lexemeChunk_isPlain (c : Char) (cs : List Char) : (lexemeChunk c cs).IsPlain := by
  unfold lexemeChunk
  split
  · split
    · split
      · exact hexChunk_isPlain _
      · exact decimalChunk_isPlain _
    · exact decimalChunk_isPlain _
  · split
    · exact decimalChunk_isPlain _
    · split
      · exact quotedChunk_isPlain (by simp) _ _
      · split
        · exact quotedChunk_isPlain (by simp) _ _
        · split
          · exact wordKind_ne _
          · split
            · exact ⟨nofun, nofun⟩
            · trivial

theorem isGap_lineComment (past : List Token) (before cs : List Char) :
    IsGap past before ('/' :: '/' :: cs.take (countWhile (· != '\n') cs))
      (cs.drop (countWhile (· != '\n') cs)) := by
  have hsplit : cs.takeWhile (· != '\n') ++ cs.dropWhile (· != '\n') = cs :=
    List.takeWhile_append_dropWhile
  have htake : cs.take (countWhile (· != '\n') cs) = cs.takeWhile (· != '\n') := by
    rw [countWhile]
    nth_rewrite 2 [← hsplit]
    exact List.take_left
  have hdrop : cs.drop (countWhile (· != '\n') cs) = cs.dropWhile (· != '\n') := by
    rw [countWhile]
    nth_rewrite 2 [← hsplit]
    exact List.drop_left
  rw [htake, hdrop]
  refine .lineComment (fun h => ?_) ?_
  · simpa using List.all_eq_true.mp List.all_takeWhile _ h
  · cases hrest : cs.dropWhile (· != '\n') with
    | nil => exact Or.inl rfl
    | cons c ds =>
      have hc := List.head_dropWhile_not (p := (· != '\n')) (l := cs) (by simp [hrest])
      simp only [hrest, List.head_cons] at hc
      exact Or.inr (by simpa using hc)

theorem isGap_of_chunk {lineStart : Bool} {c : Char} {cs : List Char} {extra : Nat}
    (h : chunk lineStart c cs = .layout extra) (past : List Token) (before : List Char) :
    IsGap past before (c :: cs.take extra) (cs.drop extra) := by
  unfold chunk at h
  split at h
  · next hc =>
    cases h
    simp only [isLayout, Bool.or_eq_true, beq_iff_eq] at hc
    exact .blank (by simpa [or_assoc] using hc)
  · split at h
    · cases h
      exact .continuation
    · cases h
      rw [Nat.add_comm, List.take_succ_cons, List.drop_succ_cons]
      exact isGap_lineComment past before _
    · next cs' _ =>
      split at h
      · next n hn =>
        cases h
        obtain ⟨text, rest, rfl, rfl, hclose⟩ := commentLength?_eq_some hn
        have hend : text ++ '*' :: '/' :: rest = (text ++ ['*', '/']) ++ rest := by simp
        have hlen : text.length + 2 = (text ++ ['*', '/']).length := by simp
        rw [Nat.add_comm, List.take_succ_cons, List.drop_succ_cons, hend, hlen, List.take_left,
          List.drop_left]
        exact .blockComment hclose
      · cases h
    · split at h
      · cases h
      · have hplain := lexemeChunk_isPlain c cs
        rw [h] at hplain
        exact hplain.elim

theorem directive_of_chunk {lineStart : Bool} {c : Char} {cs text : List Char} {extra : Nat}
    (h : chunk lineStart c cs = .directive extra text) :
    c = '#' ∧ lineStart = true ∧ directiveRest cs = (extra, text) := by
  unfold chunk at h
  split at h
  · cases h
  · split at h
    · cases h
    · cases h
    · split at h <;> cases h
    · split at h
      · next hc =>
        cases h
        simp only [Bool.and_eq_true, decide_eq_true_eq] at hc
        exact ⟨hc.1, hc.2, rfl⟩
      · have hplain := lexemeChunk_isPlain c cs
        rw [h] at hplain
        exact hplain.elim

theorem kind_of_chunk {lineStart : Bool} {c : Char} {cs : List Char} {extra : Nat} {kind : Kind}
    (h : chunk lineStart c cs = .lexeme extra kind) : kind ≠ .eof ∧ kind ≠ .pragma := by
  unfold chunk at h
  split at h
  · cases h
  · split at h
    · cases h
    · cases h
    · split at h <;> cases h
    · split at h
      · cases h
      · have hplain := lexemeChunk_isPlain c cs
        rw [h] at hplain
        exact hplain

end Chunks

/-- Where a directive may open, no token stands on the line, unless the line is over. -/
def LineStart (lineStart : Bool) (past : List Token) (before cs : List Char) : Prop :=
  lineStart = true → OpensLine past before ∨ cs = [] ∨ cs.head? = some '\n'

def Above (past : List Token) (before : List Char) : Prop :=
  ∀ t ∈ past, t.span.first.line ≤ (Position.behind before).line

theorem Above.append {past : List Token} {before : List Char} (h : Above past before)
    (text : List Char) : Above past (before ++ text) :=
  fun t ht => Nat.le_trans (h t ht) (Position.line_behind_le before text)

theorem Above.opensLine {past : List Token} {before : List Char} (h : Above past before)
    {text : List Char} (hbreak : '\n' ∈ text) : OpensLine past (before ++ text) :=
  fun t ht => Nat.lt_of_le_of_lt (h t ht) (Position.line_behind_lt before hbreak)

theorem Above.snoc {past : List Token} {before : List Char} (h : Above past before) {t : Token}
    (ht : t.span.first = .behind before) : Above (past ++ [t]) before := by
  intro u hu
  rcases List.mem_append.mp hu with hu | hu
  · exact h u hu
  · rw [List.mem_singleton.mp hu, ht]

/-- The scanner reads pieces of text, one chunk after the other, until none is left. -/
theorem scanFrom_tiles {fuel : Nat} {lineStart : Bool} {past : List Token}
    {before cs : List Char} {eof : Token} (hfuel : cs.length ≤ fuel)
    (habove : Above past before) (hstart : LineStart lineStart past before cs)
    (h : (scanFrom fuel lineStart (.behind before) cs).ending = .ok eof) :
    Tiles past before ((scanFrom fuel lineStart (.behind before) cs).tokens ++ [eof]) cs := by
  induction fuel generalizing lineStart past before cs with
  | zero =>
    obtain rfl := List.length_eq_zero_iff.mp (Nat.le_zero.mp hfuel)
    cases h
    exact .done
  | succ fuel ih =>
    cases cs with
    | nil =>
      cases h
      exact .done
    | cons c cs =>
      have hdrop (n : Nat) : (cs.drop n).length ≤ fuel := by
        rw [List.length_drop]
        rw [List.length_cons] at hfuel
        omega
      have hsplit (n : Nat) : c :: cs = (c :: cs.take n) ++ cs.drop n := by simp
      cases hchunk : chunk lineStart c cs with
      | fault extra cause => simp [scanFrom, hchunk] at h
      | layout extra =>
        simp only [scanFrom, hchunk, Position.after_behind] at h ⊢
        rw [hsplit extra]
        refine .gap (isGap_of_chunk hchunk past before)
          (ih (hdrop extra) (habove.append _) (fun hline => ?_) h)
        by_cases hbreak : '\n' ∈ c :: cs.take extra
        · exact Or.inl (habove.opensLine hbreak)
        · -- Without a line break the line goes on, and it was open before.
          have hold : lineStart = true := by simpa [hbreak] using hline
          obtain hopen | hend | hend := hstart hold
          · exact Or.inl fun t ht =>
              Nat.lt_of_lt_of_le (hopen t ht) (Position.line_behind_le before _)
          · cases hend
          · simp_all
      | directive extra text =>
        obtain ⟨rfl, rfl, hrest⟩ := directive_of_chunk hchunk
        obtain ⟨line, rest, rfl, hspec, hline⟩ := directiveRest_spec cs
        obtain ⟨rfl, rfl⟩ := Prod.mk.inj (hspec.symm.trans hrest)
        have hrun := hdrop line.length
        simp only [scanFrom, hchunk, Position.after_behind, List.take_left,
          List.drop_left] at h hrun ⊢
        have hnext (past' : List Token) :
            LineStart true past' (before ++ '#' :: line) rest :=
          fun _ => Or.inr (hline.ends.imp_right And.left)
        rw [← List.cons_append]
        by_cases hpragma : (Text.words (spliced line)).head? = some "pragma".toList
        · simp only [if_pos hpragma, Scan.cons, List.cons_append] at h ⊢
          refine .token ⟨rfl, fun hk => absurd rfl hk, fun _ => ⟨line, rfl, hline, hpragma, rfl⟩⟩
            (List.cons_ne_nil _ _) nofun (ih hrun ?_ (hnext _) h)
          exact (habove.snoc rfl).append _
        · simp only [if_neg hpragma] at h ⊢
          refine .gap (.directive hline hpragma ?_) (ih hrun (habove.append _) (hnext _) h)
          obtain hopen | hend | hend := hstart rfl
          · exact hopen
          · cases hend
          · cases hend
      | lexeme extra kind =>
        obtain ⟨heof, hpragma⟩ := kind_of_chunk hchunk
        simp only [scanFrom, hchunk, Position.after_behind, Scan.cons, List.cons_append] at h ⊢
        rw [hsplit extra]
        refine .token ⟨rfl, fun _ => rfl, fun hk => absurd hk hpragma⟩ (List.cons_ne_nil _ _) heof
          (ih (hdrop extra) ((habove.snoc rfl).append _) (fun hbreak => ?_) h)
        exact Or.inl ((habove.snoc rfl).opensLine (by simpa using hbreak))

theorem scan_tiles {source : String} {eof : Token} (h : (scan source).ending = .ok eof) :
    Tiles [] [] ((scan source).tokens ++ [eof]) source.toList :=
  scanFrom_tiles (Nat.le_refl _) (List.forall_mem_nil _)
    (fun _ => Or.inl (List.forall_mem_nil _)) h

section Places

variable {past ts : List Token} {before rest : List Char}

theorem StandsFor.offsets {t : Token} {text : List Char} (h : t.StandsFor before text rest) :
    t.span.first.offset = byteLength before ∧
      t.span.last.offset = byteLength before + byteLength text := by
  rw [h.span]
  exact ⟨rfl, byteLength_append before text⟩

theorem Tiles.standsFor (h : Tiles past before ts rest) {t : Token} (ht : t ∈ ts) :
    ∃ a text b, rest = a ++ text ++ b ∧ t.StandsFor (before ++ a) text b ∧
      (t.kind ≠ .eof → text ≠ []) := by
  induction h with
  | done =>
    obtain rfl := List.mem_singleton.mp ht
    exact ⟨[], [], [], rfl, ⟨by simp, fun _ => rfl, nofun⟩, fun hk => absurd rfl hk⟩
  | @gap past ts before piece rest _ _ ih =>
    obtain ⟨a, text, b, rfl, hstands, hne⟩ := ih ht
    exact ⟨piece ++ a, text, b, by simp, by simpa using hstands, hne⟩
  | @token past ts u before text rest hu hne _ _ ih =>
    rcases List.mem_cons.mp ht with rfl | ht
    · exact ⟨[], text, rest, by simp, by simpa using hu, fun _ => hne⟩
    · obtain ⟨a, text', b, rfl, hstands, hne'⟩ := ih ht
      exact ⟨text ++ a, text', b, by simp, by simpa using hstands, hne'⟩

theorem Tiles.le_first (h : Tiles past before ts rest) {t : Token} (ht : t ∈ ts) :
    byteLength before ≤ t.span.first.offset := by
  obtain ⟨a, text, b, -, hstands, -⟩ := h.standsFor ht
  rw [hstands.offsets.1, byteLength_append]
  exact Nat.le_add_right _ _

theorem Tiles.ordered (h : Tiles past before ts rest) :
    ts.Pairwise fun t u => t.span.first.offset < t.span.last.offset ∧
      t.span.last.offset ≤ u.span.first.offset := by
  induction h with
  | done => exact List.pairwise_singleton _ _
  | gap _ _ ih => exact ih
  | token hu hne _ htiles ih =>
    refine List.pairwise_cons.mpr ⟨fun v hv => ?_, ih⟩
    have hv := htiles.le_first hv
    have hpos := byteLength_pos hne
    rw [byteLength_append] at hv
    rw [hu.offsets.1, hu.offsets.2]
    exact ⟨by omega, hv⟩

theorem split_of_append {a b c d : List Char} (h : a ++ b = c ++ d) :
    (∃ e, c = a ++ e ∧ b = e ++ d) ∨ ∃ e, e ≠ [] ∧ a = c ++ e ∧ d = e ++ b := by
  rcases List.append_eq_append_iff.mp h with ⟨e, rfl, rfl⟩ | ⟨e, rfl, rfl⟩
  · exact Or.inl ⟨e, rfl, rfl⟩
  · by_cases he : e = []
    · exact Or.inl ⟨[], by simp [he], by simp [he]⟩
    · exact Or.inr ⟨e, he, rfl, rfl⟩

/-- Every character of a tiled text belongs to a token or to a gap between tokens. -/
theorem Tiles.covers (h : Tiles past before ts rest) (hpast : ∀ t ∈ past, t.span.last.offset ≤
    byteLength before) {a b : List Char} {c : Char} (hc : rest = a ++ c :: b) :
    (∃ t ∈ ts, t.span.first.offset ≤ byteLength (before ++ a) ∧
      byteLength (before ++ a) < t.span.last.offset) ∨
    ∃ g piece b', rest = g ++ piece ++ b' ∧ HasGap (past ++ ts) (before ++ g) piece b' ∧
      g.length ≤ a.length ∧ a.length < g.length + piece.length := by
  induction h generalizing a with
  | done => simp at hc
  | @gap past ts before piece rest hgap htiles ih =>
    obtain ⟨e, rfl, hrest⟩ | ⟨e, hne, rfl, -⟩ := split_of_append hc
    · have hpast' : ∀ t ∈ past, t.span.last.offset ≤ byteLength (before ++ piece) := by
        intro t ht
        rw [byteLength_append]
        exact Nat.le_add_right_of_le (hpast t ht)
      obtain ⟨t, ht, hin⟩ | ⟨g, piece', b', rfl, hgap', hlo, hhi⟩ := ih hpast' hrest
      · exact Or.inl ⟨t, ht, by simpa using hin⟩
      · refine Or.inr ⟨piece ++ g, piece', b', by simp, by simpa using hgap', ?_, ?_⟩
        · simpa using hlo
        · simp only [List.length_append]
          omega
    · refine Or.inr ⟨[], a ++ e, rest, by simp, ?_, Nat.zero_le _, ?_⟩
      · rw [List.append_nil]
        exact ⟨past, ts, rfl, hgap, hpast, fun t ht => htiles.le_first ht⟩
      · have := List.length_pos_of_ne_nil hne
        simp only [List.length_nil, List.length_append]
        omega
  | @token past ts u before text rest hu hne _ htiles ih =>
    obtain ⟨e, rfl, hrest⟩ | ⟨e, hne', rfl, -⟩ := split_of_append hc
    · have hpast' : ∀ t ∈ past ++ [u], t.span.last.offset ≤ byteLength (before ++ text) := by
        intro t ht
        rw [byteLength_append]
        rcases List.mem_append.mp ht with ht | ht
        · exact Nat.le_add_right_of_le (hpast t ht)
        · rw [List.mem_singleton.mp ht, hu.offsets.2]
      obtain ⟨t, ht, hin⟩ | ⟨g, piece, b', rfl, hgap, hlo, hhi⟩ := ih hpast' hrest
      · exact Or.inl ⟨t, List.mem_cons_of_mem _ ht, by simpa using hin⟩
      · refine Or.inr ⟨text ++ g, piece, b', by simp, by simpa using hgap, ?_, ?_⟩
        · simpa using hlo
        · simp only [List.length_append]
          omega
    · refine Or.inl ⟨u, List.mem_cons_self, ?_⟩
      have := byteLength_pos hne'
      rw [hu.offsets.1, hu.offsets.2]
      simp only [byteLength_append]
      omega

theorem Tiles.exists_eof (h : Tiles past before ts rest) :
    ∃ us, ts = us ++ [⟨.eof, "", ⟨.behind (before ++ rest), .behind (before ++ rest)⟩⟩] ∧
      ∀ u ∈ us, u.kind ≠ .eof := by
  induction h with
  | done => exact ⟨[], by simp, List.forall_mem_nil _⟩
  | gap _ _ ih => simpa using ih
  | @token past ts u before text rest _ _ hu _ ih =>
    obtain ⟨us, rfl, hus⟩ := ih
    exact ⟨u :: us, by simp, List.forall_mem_cons.mpr ⟨hu, hus⟩⟩

end Places

/-- The tokens of a text that scans tile it. Each is the text that its span cuts out, between
places counted from the start, and is not empty before the end. They come one after the other.
What stands outside of all of them is white space, a line continuation, a comment or a
directive other than a pragma. The last one is the only end and stands behind the text. -/
theorem scan_tokens_tile {source : String} {eof : Token} (h : (scan source).ending = .ok eof) :
    let tokens := (scan source).tokens ++ [eof]
    (∀ t ∈ tokens, ∃ before text rest, source.toList = before ++ text ++ rest ∧
      t.StandsFor before text rest ∧ (t.kind ≠ .eof → text ≠ []) ∧
      t.span.snippet? source = some (String.ofList text)) ∧
    (tokens.Pairwise fun t u => t.span.first.offset < t.span.last.offset ∧
      t.span.last.offset ≤ u.span.first.offset) ∧
    (∀ before c rest, source.toList = before ++ c :: rest →
      (∀ t ∈ tokens, ¬ (t.span.first.offset ≤ byteLength before ∧
        byteLength before < t.span.last.offset)) →
      ∃ a piece b, source.toList = a ++ piece ++ b ∧ HasGap tokens a piece b ∧
        a.length ≤ before.length ∧ before.length < a.length + piece.length) ∧
    eof.kind = .eof ∧ eof.span = ⟨.behind source.toList, .behind source.toList⟩ ∧
    ∀ t ∈ (scan source).tokens, t.kind ≠ .eof := by
  intro tokens
  have htiles := scan_tiles h
  obtain ⟨us, hus, hkinds⟩ := htiles.exists_eof
  obtain ⟨rfl, heof⟩ := List.append_inj' hus rfl
  obtain rfl := List.singleton_inj.mp heof
  refine ⟨fun t ht => ?_, htiles.ordered, fun before c rest hc hout => ?_, rfl, rfl, hkinds⟩
  · obtain ⟨a, text, b, hsource, hstands, hne⟩ := htiles.standsFor ht
    refine ⟨a, text, b, hsource, hstands, hne, ?_⟩
    rw [hstands.span]
    exact Span.snippet?_behind hsource
  · obtain ⟨t, ht, hin⟩ | hgap := htiles.covers (List.forall_mem_nil _) hc
    · exact absurd hin (hout t ht)
    · exact hgap

/-- A directive and a comment that holds a character of two bytes and a line break stand in
front of two names. The line break belongs to the comment. -/
theorem scan_tokens_tile_comment :
    let source := "#define n\n/* \u00e9\n*/a b"
    let eof : Token := ⟨.eof, "", ⟨⟨3, 6, 21⟩, ⟨3, 6, 21⟩⟩⟩
    let tokens := (scan source).tokens ++ [eof]
    (scan source).ending = .ok eof ∧ tokens.map (·.lexeme) = ["a", "b", ""] ∧
      (∀ t ∈ tokens, ∃ before text rest, source.toList = before ++ text ++ rest ∧
        t.StandsFor before text rest ∧ (t.kind ≠ .eof → text ≠ []) ∧
        t.span.snippet? source = some (String.ofList text)) ∧
      ∃ a piece b, source.toList = a ++ piece ++ b ∧ HasGap tokens a piece b ∧
        a.length ≤ 14 ∧ 14 < a.length + piece.length := by
  intro source eof tokens
  have h : (scan source).ending = .ok eof := by decide +kernel
  obtain ⟨hstands, -, hgaps, -⟩ := scan_tokens_tile h
  exact ⟨h, by decide +kernel, hstands, hgaps "#define n\n/* \u00e9".toList '\n' "*/a b".toList
    (by decide +kernel) (by decide +kernel)⟩

end Token

end LoopLegality

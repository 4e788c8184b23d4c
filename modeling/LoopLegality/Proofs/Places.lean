import LoopLegality.Proofs.Resolution
import LoopLegality.Proofs.Tiling

namespace LoopLegality

theorem Position.offset_after (p : Position) (cs : List Char) :
    (p.after cs).offset = p.offset + byteLength cs := by
  induction cs generalizing p with
  | nil => rfl
  | cons c cs ih =>
    have hnext : (p.next c).offset = p.offset + c.utf8Size := by
      rw [next]
      split <;> rfl
    rw [byteLength_cons, ← Nat.add_assoc, ← hnext]
    exact ih (p.next c)

theorem Position.line_le_after (p : Position) (cs : List Char) : p.line ≤ (p.after cs).line := by
  induction cs generalizing p with
  | nil => exact Nat.le_refl _
  | cons c cs ih =>
    have hnext : p.line ≤ (p.next c).line := by
      rw [next]
      split
      · exact Nat.le_succ _
      · exact Nat.le_refl _
    exact Nat.le_trans hnext (ih (p.next c))

def Span.Encloses (a b : Span) : Prop :=
  a.first.offset ≤ b.first.offset ∧ b.last.offset ≤ a.last.offset

namespace Token

def Placed (t : Token) : Prop :=
  0 < t.span.first.line ∧ t.span.first.offset < t.span.last.offset

/-- Tokens that stand one after the other. -/
structure Ordered (ts : List Token) : Prop where
  placed : ∀ t ∈ ts, t.Placed
  pairwise : ts.Pairwise fun t u => t.span.last.offset ≤ u.span.first.offset

/-- The end of a text is no token of it and has no length. -/
def IsEnd (eof : Token) : Prop := eof.kind = .eof ∧ eof.span.first = eof.span.last

/-- What the scanner yields from a place on. -/
structure ScansFrom (p : Position) (s : Scan) : Prop where
  ordered : Ordered s.tokens
  behind : ∀ t ∈ s.tokens, p.offset ≤ t.span.first.offset
  ending : ∀ eof, s.ending = .ok eof → eof.IsEnd

theorem ScansFrom.mono {p q : Position} {s : Scan} (h : ScansFrom q s)
    (hpq : p.offset ≤ q.offset) : ScansFrom p s :=
  { h with behind := fun t ht => Nat.le_trans hpq (h.behind t ht) }

theorem scansFrom_endScan (p : Position) : ScansFrom p (endScan p) where
  ordered := ⟨List.forall_mem_nil _, .nil⟩
  behind := List.forall_mem_nil _
  ending := by
    rintro eof ⟨⟩
    exact ⟨rfl, rfl⟩

theorem scansFrom_fault (p : Position) (e : LexError) : ScansFrom p ⟨[], .error e⟩ where
  ordered := ⟨by simp, .nil⟩
  behind := by simp
  ending := by simp

theorem ScansFrom.cons {p : Position} {cs : List Char} {s : Scan} (hcs : cs ≠ [])
    (hp : 0 < p.line) (kind : Kind) (lexeme : String) (h : ScansFrom (p.after cs) s) :
    ScansFrom p (.cons ⟨kind, lexeme, ⟨p, p.after cs⟩⟩ s) := by
  have hlt : p.offset < (p.after cs).offset := by
    rw [p.offset_after]
    exact Nat.lt_add_of_pos_right (byteLength_pos hcs)
  refine ⟨⟨?_, List.pairwise_cons.mpr ⟨h.behind, h.ordered.pairwise⟩⟩, ?_, h.ending⟩
  · exact List.forall_mem_cons.mpr ⟨⟨hp, hlt⟩, h.ordered.placed⟩
  · exact List.forall_mem_cons.mpr ⟨Nat.le_refl _, (h.mono (Nat.le_of_lt hlt)).behind⟩

theorem scansFrom_scanFrom (fuel : Nat) (lineStart : Bool) (p : Position) (cs : List Char)
    (hp : 0 < p.line) : ScansFrom p (scanFrom fuel lineStart p cs) := by
  induction fuel generalizing lineStart p cs with
  | zero => cases cs <;> exact scansFrom_endScan p
  | succ fuel ih =>
    cases cs with
    | nil => exact scansFrom_endScan p
    | cons c cs =>
      have hline (ds : List Char) : 0 < (p.after ds).line :=
        Nat.lt_of_lt_of_le hp (p.line_le_after ds)
      have hoffset (ds : List Char) : p.offset ≤ (p.after ds).offset := by
        rw [p.offset_after]
        exact Nat.le_add_right _ _
      rw [scanFrom]
      cases chunk lineStart c cs with
      | layout extra => exact (ih _ _ _ (hline _)).mono (hoffset _)
      | directive extra text =>
        dsimp only
        split
        · exact (ih _ _ _ (hline _)).cons (List.cons_ne_nil _ _) hp _ _
        · exact (ih _ _ _ (hline _)).mono (hoffset _)
      | lexeme extra kind => exact (ih _ _ _ (hline _)).cons (List.cons_ne_nil _ _) hp _ _
      | fault extra cause => exact scansFrom_fault p _

namespace Ordered

variable {ts us : List Token} {t u : Token}

theorem of_infix (h : Ordered ts) (hus : us <:+: ts) : Ordered us where
  placed t ht := h.placed t (hus.subset ht)
  pairwise := h.pairwise.sublist hus.sublist

theorem head_le (h : Ordered (t :: ts)) (hu : u ∈ t :: ts) :
    t.span.first.offset ≤ u.span.first.offset := by
  rcases List.mem_cons.mp hu with rfl | hu
  · exact Nat.le_refl _
  · have hlt := (h.placed t List.mem_cons_self).2
    have hle := (List.pairwise_cons.mp h.pairwise).1 u hu
    omega

theorem lt_last (h : Ordered (ts ++ [t])) (hu : u ∈ ts) :
    u.span.last.offset < t.span.last.offset := by
  have hlt := (h.placed t (by simp)).2
  have hle := (List.pairwise_append.mp h.pairwise).2.2 u hu t (by simp)
  omega

theorem eq_of_span (h : Ordered ts) (ht : t ∈ ts) (hu : u ∈ ts) (hspan : t.span = u.span) :
    t = u := by
  obtain ⟨i, hi, rfl⟩ := List.mem_iff_getElem.mp ht
  obtain ⟨j, hj, rfl⟩ := List.mem_iff_getElem.mp hu
  have hbefore {k l : Nat} (hk : k < ts.length) (hl : l < ts.length) (hkl : k < l) :
      ts[k].span ≠ ts[l].span := by
    intro heq
    have hlt := (h.placed ts[k] (List.getElem_mem hk)).2
    have hle := List.pairwise_iff_getElem.mp h.pairwise k l hk hl hkl
    rw [← heq] at hle
    omega
  rcases Nat.lt_trichotomy i j with hij | rfl | hij
  · exact absurd hspan (hbefore hi hj hij)
  · rfl
  · exact absurd hspan.symm (hbefore hj hi hij)

end Ordered

/-- A span from the start of the first of some tokens to the end of the last. -/
def Covers (s : Span) (ts : List Token) : Prop :=
  ∃ t ∈ ts.head?, ∃ u ∈ ts.getLast?, s = ⟨t.span.first, u.span.last⟩

section Covers

variable {ts us zs pre rest : List Token} {a b s : Span} {t : Token}

theorem covers_singleton (t : Token) : Covers t.span [t] := ⟨t, rfl, t, rfl, rfl⟩

theorem Covers.ne_nil (h : Covers s ts) : ts ≠ [] := by
  rintro rfl
  obtain ⟨t, ht, -⟩ := h
  cases ht

theorem Covers.merge (ha : Covers a ts) (hb : Covers b us) (h : Ordered zs) (hts : ts <+: zs)
    (hus : us <:+ zs) : Covers (a.merge b) zs := by
  obtain ⟨t, ht, t', ht', rfl⟩ := ha
  obtain ⟨u, hu, u', hu', rfl⟩ := hb
  have hhead : zs.head? = some t := by
    obtain ⟨zs', rfl⟩ := hts
    rw [List.head?_append, ht, Option.some_or]
  obtain ⟨zs', rfl⟩ : ∃ zs', zs = zs' ++ [u'] := by
    obtain ⟨zs', rfl⟩ := hus
    obtain ⟨us', rfl⟩ := List.getLast?_eq_some_iff.mp hu'
    exact ⟨zs' ++ us', by simp⟩
  have hmem : t' ∈ zs' ++ [u'] := hts.subset (List.mem_of_getLast? ht')
  have hmem' : u ∈ zs' ++ [u'] := hus.subset (List.mem_of_head? hu)
  have hline : 0 < t.span.first.line := (h.placed t (List.mem_of_head? hhead)).1
  have hline' : 0 < u.span.first.line := (h.placed u hmem').1
  have hfirst : t.span.first.offset ≤ u.span.first.offset := by
    obtain ⟨zs'', hzs⟩ := List.head?_eq_some_iff.mp hhead
    rw [hzs] at h hmem'
    exact h.head_le hmem'
  have hlast : u'.span.last.offset ≤ t'.span.last.offset → t'.span.last = u'.span.last := by
    intro hle
    rcases List.mem_append.mp hmem with hmem | hmem
    · exact absurd (h.lt_last hmem) (Nat.not_lt.mpr hle)
    · rw [List.mem_singleton.mp hmem]
  refine ⟨t, hhead, u', by simp, ?_⟩
  simp only [Span.merge, Span.isNone, beq_iff_eq, Bool.and_eq_true, Nat.ne_of_gt hline,
    Nat.ne_of_gt hline', false_and, if_false, if_pos hfirst, Span.mk.injEq, true_and]
  split
  · exact hlast ‹_›
  · rfl

theorem Covers.encloses (ha : Covers a ts) (hb : Covers b us) (h : Ordered ts) (hus : us <:+: ts) :
    a.Encloses b := by
  obtain ⟨t, ht, t', ht', rfl⟩ := ha
  obtain ⟨u, hu, u', hu', rfl⟩ := hb
  have hmem : u ∈ ts := hus.subset (List.mem_of_head? hu)
  have hmem' : u' ∈ ts := hus.subset (List.mem_of_getLast? hu')
  constructor
  · obtain ⟨ts', rfl⟩ := List.head?_eq_some_iff.mp ht
    exact h.head_le hmem
  · obtain ⟨ts', rfl⟩ := List.getLast?_eq_some_iff.mp ht'
    rcases List.mem_append.mp hmem' with hmem' | hmem'
    · exact Nat.le_of_lt (h.lt_last hmem')
    · rw [List.mem_singleton.mp hmem']

theorem dropWhile_offset {n : Nat} (hpre : ∀ t ∈ pre, t.span.first.offset < n)
    (hrest : ∀ t ∈ rest, n ≤ t.span.first.offset) :
    (pre ++ rest).dropWhile (·.span.first.offset < n) = rest := by
  rw [List.dropWhile_append_of_pos (by simpa using hpre)]
  cases rest with
  | nil => rfl
  | cons t rest => exact List.dropWhile_cons_of_neg (by simpa using hrest t List.mem_cons_self)

theorem Covers.nameFrom_first (hs : Covers s ts) (h : Ordered zs) (hts : ts ++ rest <:+ zs) :
    nameFrom s.first.offset zs = firstName (ts ++ rest) := by
  obtain ⟨t, ht, u, hu, rfl⟩ := hs
  obtain ⟨pre, rfl⟩ := hts
  obtain ⟨ts', rfl⟩ := List.head?_eq_some_iff.mp ht
  rw [nameFrom, dropWhile_offset]
  · intro v hv
    have hlt := (h.placed v (List.mem_append_left _ hv)).2
    have hle := (List.pairwise_append.mp h.pairwise).2.2 v hv t (by simp)
    exact Nat.lt_of_lt_of_le hlt hle
  · intro v hv
    exact (h.of_infix (List.suffix_append pre _).isInfix).head_le hv

theorem Covers.nameFrom_last (hs : Covers s ts) (h : Ordered zs) (hts : ts ++ rest <:+ zs) :
    nameFrom s.last.offset zs = firstName rest := by
  obtain ⟨t, ht, u, hu, rfl⟩ := hs
  obtain ⟨pre, rfl⟩ := hts
  obtain ⟨ts', rfl⟩ := List.getLast?_eq_some_iff.mp hu
  rw [← List.append_assoc] at h ⊢
  rw [nameFrom, dropWhile_offset]
  · intro v hv
    have hlt := (h.placed v (List.mem_append_left _ hv)).2
    rw [← List.append_assoc] at hv h
    have hpre : Ordered (pre ++ ts' ++ [u]) := h.of_infix (List.prefix_append _ _).isInfix
    rcases List.mem_append.mp hv with hv | hv
    · exact Nat.lt_trans hlt (hpre.lt_last hv)
    · exact List.mem_singleton.mp hv ▸ hlt
  · intro v hv
    exact (List.pairwise_append.mp h.pairwise).2.2 u (by simp) v hv

end Covers

theorem nameUnder?_of_mem {ts : List Token} (h : Ordered ts) {t : Token} (ht : t ∈ ts) :
    nameUnder? t.span ts = if t.kind = .identifier then some t.lexeme else none := by
  rw [nameUnder?]
  cases hfind : ts.find? fun u => u.kind == .identifier && u.span == t.span with
  | some u =>
    have hu := List.find?_some hfind
    simp only [Bool.and_eq_true, beq_iff_eq] at hu
    obtain rfl := h.eq_of_span (List.mem_of_find?_eq_some hfind) ht hu.2
    simp [hu.1]
  | none =>
    have hne : t.kind ≠ .identifier := by simpa using List.find?_eq_none.mp hfind t ht
    simp [hne]

theorem IsEnd.nameUnder? {ts : List Token} {eof : Token} (heof : eof.IsEnd) (h : Ordered ts) :
    nameUnder? eof.span ts = none := by
  rw [Token.nameUnder?, Option.map_eq_none_iff, List.find?_eq_none]
  intro t ht heq
  simp only [Bool.and_eq_true, beq_iff_eq] at heq
  have hlt := (h.placed t ht).2
  rw [heq.2, heof.2] at hlt
  exact Nat.lt_irrefl _ hlt

end Token

end LoopLegality

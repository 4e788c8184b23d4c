import LoopLegality.Proofs.Linear

namespace LoopLegality

theorem Word.fits_zero : Word.Fits 0 := by decide

theorem Word.fits_mul_neg_one {n : Int} (h : Word.Fits n) :
    Word.Fits (n * -1) ↔ n ≠ -9223372036854775808 := by
  unfold Word.Fits at *
  omega

theorem Word.isSome_fit? {n : Int} : (Word.fit? n).isSome ↔ Word.Fits n := by
  by_cases h : Word.Fits n <;> simp [Word.fit?, h]

namespace Linear

variable {l m s : Linear} {x : Symbol} {k n : Int}

theorem coefficient_erase (l : Linear) (x y : Symbol) :
    (l.erase x).coefficient y = if y = x then 0 else l.coefficient y := by
  rw [coefficient, erase, IndexMap.get?_erase, coefficient]
  split <;> rfl

theorem coefficient_set (l : Linear) (x : Symbol) (c : Int) (y : Symbol) :
    (l.set x c).coefficient y = if y = x then c else l.coefficient y := by
  unfold set
  split
  · next hc => rw [coefficient_erase, hc]
  · rw [coefficient, IndexMap.get?_insert, coefficient]
    by_cases hy : y = x <;> simp [hy, Ne.symm]

theorem coefficient_term (x : Symbol) (c : Int) (y : Symbol) :
    (term x c).coefficient y = if y = x then c else 0 := by
  rw [term, coefficient_set]
  rfl

theorem get?_terms (l : Linear) (x : Symbol) :
    l.terms.get? x = if l.coefficient x = 0 then none else some (l.coefficient x) := by
  rw [coefficient]
  cases h : l.terms.get? x with
  | none => rfl
  | some c =>
    have hc : c ≠ 0 := l.nonzero (x, c) (IndexMap.mem_of_find h)
    simp [hc]

theorem coefficient_of_mem {t : Symbol × Int} (h : t ∈ l.terms.entries) :
    l.coefficient t.1 = t.2 := by
  rw [coefficient, IndexMap.get?_of_mem_entries h, Option.getD_some]

theorem mem_entries (h : l.coefficient x ≠ 0) : (x, l.coefficient x) ∈ l.terms.entries := by
  apply IndexMap.mem_of_find
  exact (get?_terms l x).trans (if_neg h)

theorem ext_coefficient (hc : l.constant = m.constant)
    (h : ∀ x, l.coefficient x = m.coefficient x) : l = m := by
  have hterms : l.terms = m.terms := by
    apply IndexMap.ext_get?
    intro x
    rw [get?_terms, get?_terms, h]
  obtain ⟨c, ts, hl⟩ := l
  obtain ⟨d, us, hm⟩ := m
  cases hc
  cases hterms
  rfl

section Valuations

theorem sumOf_zero (ts : List (Symbol × Int)) : sumOf (fun _ => 0) ts = 0 := by
  induction ts with
  | nil => rfl
  | cons t ts ih => rw [sumOf, ih, mul_zero, add_zero]

theorem sumOf_unit (x : Symbol) {ts : List (Symbol × Int)}
    (hs : ts.Pairwise (fun a b => a.1 < b.1)) :
    sumOf (Function.update (fun _ => 0) x 1) ts = (IndexMap.find x ts).getD 0 := by
  induction ts with
  | nil => rfl
  | cons t ts ih =>
    obtain ⟨ht, hs⟩ := List.pairwise_cons.mp hs
    rw [sumOf, ih hs, IndexMap.find]
    by_cases hx : t.1 = x
    · rw [if_pos hx, IndexMap.find_eq_none (hx ▸ ht), hx]
      simp
    · rw [if_neg hx, Function.update_of_ne hx]
      simp

theorem eval_zero (l : Linear) : l.eval (fun _ => 0) = l.constant := by
  rw [eval, sumOf_zero, add_zero]

theorem eval_unit (l : Linear) (x : Symbol) :
    l.eval (Function.update (fun _ => 0) x 1) = l.constant + l.coefficient x := by
  rw [eval, sumOf_unit x l.terms.sorted]
  rfl

/-- The values at zero and at the unit points tell forms apart. -/
theorem eq_iff_eval : l = m ↔ ∀ v, l.eval v = m.eval v := by
  constructor
  · rintro rfl v
    rfl
  · intro h
    have hc : l.constant = m.constant := by rw [← eval_zero, h, eval_zero]
    apply ext_coefficient hc
    intro x
    have hx := h (Function.update (fun _ => 0) x 1)
    rw [eval_unit, eval_unit, hc] at hx
    exact Int.add_left_cancel hx

end Valuations

section Terms

variable {σ : Type} {f : σ → Symbol × Int → Option σ} {coeff : σ → Symbol → Int}
  {g : Int → Int → Int}

/-- A step that takes a term in: the coefficient of its binding becomes `g` of the old one and
the term's, if a word can hold that, and no other coefficient changes. -/
structure TakesIn (f : σ → Symbol × Int → Option σ) (coeff : σ → Symbol → Int)
    (g : Int → Int → Int) : Prop where
  isSome : ∀ s t, (f s t).isSome ↔ Word.Fits (g (coeff s t.1) t.2)
  coeff_eq : ∀ {s t s'}, f s t = some s' →
    ∀ x, coeff s' x = if x = t.1 then g (coeff s t.1) t.2 else coeff s x

theorem TakesIn.isSome_foldlM (hf : TakesIn f coeff g) {es : List (Symbol × Int)}
    (hs : es.Pairwise (fun a b => a.1 < b.1)) (s : σ) :
    (es.foldlM f s).isSome ↔ ∀ e ∈ es, Word.Fits (g (coeff s e.1) e.2) := by
  induction es generalizing s with
  | nil => simp
  | cons e es ih =>
    obtain ⟨hlt, hs⟩ := List.pairwise_cons.mp hs
    rw [List.foldlM_cons, List.forall_mem_cons, ← hf.isSome s e]
    cases hstep : f s e with
    | none => simp
    | some s' =>
      rw [Option.bind_eq_bind, Option.bind_some, ih hs, and_iff_right (Option.isSome_some)]
      -- the keys ascend, so the new coefficient is not looked up again
      apply forall₂_congr
      intro d hd
      rw [hf.coeff_eq hstep, if_neg (hlt d hd).ne']

theorem TakesIn.coeff_foldlM (hf : TakesIn f coeff g) {es : List (Symbol × Int)}
    (hs : es.Pairwise (fun a b => a.1 < b.1)) {s s' : σ} (h : es.foldlM f s = some s')
    (x : Symbol) :
    coeff s' x = ((IndexMap.find x es).map (g (coeff s x))).getD (coeff s x) := by
  induction es generalizing s with
  | nil =>
    obtain rfl : s = s' := by simpa using h
    rfl
  | cons e es ih =>
    obtain ⟨hlt, hs⟩ := List.pairwise_cons.mp hs
    rw [List.foldlM_cons] at h
    obtain ⟨s₁, hstep, h⟩ := Option.bind_eq_some_iff.mp h
    rw [ih hs h, IndexMap.find, hf.coeff_eq hstep]
    by_cases hx : e.1 = x
    · subst hx
      simp [IndexMap.find_eq_none hlt]
    · simp [hx, Ne.symm hx]

theorem takesIn_addTerm? : TakesIn addTerm? coefficient (· + ·) where
  isSome l t := by
    rw [← Word.isSome_fit?, addTerm?, Word.add?]
    cases Word.fit? (l.coefficient t.1 + t.2) <;> simp
  coeff_eq h x := by
    obtain ⟨c, hc, h⟩ := Option.bind_eq_some_iff.mp h
    cases h
    rw [coefficient_set, Word.eq_of_add? hc]

theorem takesIn_scaleTerm? (k : Int) :
    TakesIn (scaleTerm? k) (fun ts x => (ts.get? x).getD 0) (fun _ c => c * k) where
  isSome ts t := by
    rw [← Word.isSome_fit?, scaleTerm?, Word.mul?]
    cases Word.fit? (t.2 * k) <;> simp
  coeff_eq {_ t _} h x := by
    obtain ⟨c, hc, h⟩ := Option.bind_eq_some_iff.mp h
    cases h
    rw [IndexMap.get?_insert, Word.eq_of_mul? hc]
    by_cases hx : x = t.1 <;> simp [hx, Ne.symm]

end Terms

/-- A sum exists if each of its terms fits a word. Terms of the left side alone are not looked
at. -/
theorem isSome_add? : (l.add? m).isSome ↔ Word.Fits (l.constant + m.constant) ∧
    ∀ x, m.coefficient x ≠ 0 → Word.Fits (l.coefficient x + m.coefficient x) := by
  have hterms (c : Int) : (m.terms.entries.foldlM addTerm? { l with constant := c }).isSome ↔
      ∀ x, m.coefficient x ≠ 0 → Word.Fits (l.coefficient x + m.coefficient x) := by
    rw [takesIn_addTerm?.isSome_foldlM m.terms.sorted]
    constructor
    · intro h x hx
      exact h _ (mem_entries hx)
    · intro h e he
      have hc := coefficient_of_mem he
      rw [← hc]
      exact h e.1 (hc ▸ m.nonzero e he)
  rw [← Word.isSome_fit?, add?, Word.add?]
  cases Word.fit? (l.constant + m.constant) with
  | none => simp
  | some c => simpa using hterms c

theorem terms_add? (h : l.add? m = some s) : s.constant = l.constant + m.constant ∧
    ∀ x, s.coefficient x = l.coefficient x + m.coefficient x := by
  obtain ⟨c, hc, h⟩ := Option.bind_eq_some_iff.mp h
  have hcoeff (x : Symbol) : s.coefficient x = l.coefficient x + m.coefficient x := by
    have hm : m.coefficient x = (IndexMap.find x m.terms.entries).getD 0 := rfl
    rw [takesIn_addTerm?.coeff_foldlM m.terms.sorted h, hm]
    cases IndexMap.find x m.terms.entries with
    | none => exact (Int.add_zero _).symm
    | some c => rfl
  refine ⟨?_, hcoeff⟩
  rw [← eval_zero s, eval_addTerms _ h, sumOf_zero, add_zero, eval_zero, Word.eq_of_add? hc]

/-- A multiple exists if each of its terms fits a word. -/
theorem isSome_scale? : (l.scale? k).isSome ↔ Word.Fits (l.constant * k) ∧
    ∀ x, Word.Fits (l.coefficient x * k) := by
  by_cases hk : k = 0
  · simp [scale?, hk, Word.fits_zero]
  · have hterms : (l.terms.entries.foldlM (scaleTerm? k) .empty).isSome ↔
        ∀ x, Word.Fits (l.coefficient x * k) := by
      rw [(takesIn_scaleTerm? k).isSome_foldlM l.terms.sorted]
      constructor
      · intro h x
        by_cases hx : l.coefficient x = 0
        · rw [hx, zero_mul]
          exact Word.fits_zero
        · exact h _ (mem_entries hx)
      · intro h e he
        rw [← coefficient_of_mem he]
        exact h e.1
    rw [← hterms, ← Word.isSome_fit?, scale?, dif_neg hk, Word.mul?]
    split
    · next h => simp [h]
    · next ts h => cases Word.fit? (l.constant * k) <;> simp [h]

theorem terms_scale? (h : l.scale? k = some s) : s.constant = l.constant * k ∧
    ∀ x, s.coefficient x = l.coefficient x * k := by
  by_cases hk : k = 0
  · subst hk
    cases h
    refine ⟨(mul_zero _).symm, fun x => ?_⟩
    rw [mul_zero]
    rfl
  · obtain ⟨hts, hc⟩ := (scale?_eq_some hk).mp h
    refine ⟨Word.eq_of_mul? hc, fun x => ?_⟩
    rw [coefficient, (takesIn_scaleTerm? k).coeff_foldlM l.terms.sorted hts, IndexMap.get?_empty,
      coefficient, IndexMap.get?]
    cases IndexMap.find x l.terms.entries <;> simp

theorem terms_substitute? (h : l.substitute? x n = some m) :
    m.constant = l.constant + l.coefficient x * n ∧
      ∀ y, m.coefficient y = if y = x then 0 else l.coefficient y := by
  rw [substitute?] at h
  split at h
  · next hx =>
    cases h
    have hzero : l.coefficient x = 0 := by rw [coefficient, hx, Option.getD_none]
    refine ⟨by rw [hzero, zero_mul, add_zero], fun y => ?_⟩
    split
    · next hy => rw [hy, hzero]
    · rfl
  · next c hc =>
    simp only [Option.bind_eq_bind, Option.bind_eq_some_iff, Option.pure_def,
      Option.some.injEq] at h
    obtain ⟨p, hp, a, ha, rfl⟩ := h
    have hcoeff : l.coefficient x = c := by rw [coefficient, hc, Option.getD_some]
    refine ⟨?_, fun y => ?_⟩
    · rw [hcoeff, ← Word.eq_of_mul? hp]
      exact Word.eq_of_add? ha
    · exact coefficient_erase l x y

/-- Which forms the expressions have, rule by rule. -/
inductive Reduction : Expr → Linear → Prop
  | int (n : Int) (s : Span) : Reduction (.int n s) (const n)
  | ident (x : Symbol) (s : Span) : Reduction (.ident x s) (var x)
  | plus {e l} (s : Span) (h : Reduction e l) : Reduction (.unary .plus e s) l
  | neg {e l m} (s : Span) (h : Reduction e l) (hm : l.neg? = some m) :
      Reduction (.unary .neg e s) m
  | add {e f l m r} (s : Span) (hl : Reduction e l) (hm : Reduction f m) (hr : l.add? m = some r) :
      Reduction (.binary .add e f s) r
  | sub {e f l m r} (s : Span) (hl : Reduction e l) (hm : Reduction f m) (hr : l.sub? m = some r) :
      Reduction (.binary .sub e f s) r
  | scaleLeft {e f l m r k} (s : Span) (hl : Reduction e l) (hm : Reduction f m)
      (hk : l.constant? = some k) (hr : m.scale? k = some r) : Reduction (.binary .mul e f s) r
  | scaleRight {e f l m r k} (s : Span) (hl : Reduction e l) (hm : Reduction f m)
      (hk : m.constant? = some k) (hr : l.scale? k = some r) : Reduction (.binary .mul e f s) r

theorem reduction_of_ofExpr? : ∀ (e : Expr) {l : Linear}, ofExpr? e = some l → Reduction e l
  | .int n s, _, h => by
    cases h
    exact .int n s
  | .ident x s, _, h => by
    cases h
    exact .ident x s
  | .unary .plus e s, _, h => .plus s (reduction_of_ofExpr? e h)
  | .unary .neg e s, _, h => by
    obtain ⟨m, hm, h⟩ := Option.bind_eq_some_iff.mp h
    exact .neg s (reduction_of_ofExpr? e hm) h
  | .binary op e f s, r, h => by
    simp only [ofExpr?, Option.bind_eq_bind, Option.bind_eq_some_iff] at h
    obtain ⟨l, hl, m, hm, h⟩ := h
    have hl := reduction_of_ofExpr? e hl
    have hm := reduction_of_ofExpr? f hm
    cases op with
    | add => exact .add s hl hm h
    | sub => exact .sub s hl hm h
    | mul =>
      dsimp only at h
      split at h
      · next k hk => exact .scaleLeft s hl hm hk h
      · next k hk => exact .scaleRight s hl hm hk h
      · cases h
    | _ => cases h

structure Fits (l : Linear) : Prop where
  constant : Word.Fits l.constant
  coefficient : ∀ x, Word.Fits (l.coefficient x)

theorem fits_const (hn : Word.Fits n) : (const n).Fits := ⟨hn, fun _ => Word.fits_zero⟩

theorem fits_term (x : Symbol) (hk : Word.Fits k) : (term x k).Fits := by
  have hconstant : Word.Fits (term x k).constant := by
    rw [term, constant_set]
    exact Word.fits_zero
  refine ⟨hconstant, fun y => ?_⟩
  rw [coefficient_term]
  split
  · exact hk
  · exact Word.fits_zero

theorem Fits.of_add? (hl : l.Fits) (h : l.add? m = some s) : s.Fits := by
  obtain ⟨hconstant, hcoeff⟩ := isSome_add?.mp (Option.isSome_of_eq_some h)
  obtain ⟨hc, hx⟩ := terms_add? h
  refine ⟨hc ▸ hconstant, fun x => ?_⟩
  rw [hx]
  by_cases hm : m.coefficient x = 0
  · rw [hm, add_zero]
    exact hl.coefficient x
  · exact hcoeff x hm

theorem fits_of_scale? (h : l.scale? k = some s) : s.Fits := by
  obtain ⟨hconstant, hcoeff⟩ := isSome_scale?.mp (Option.isSome_of_eq_some h)
  obtain ⟨hc, hx⟩ := terms_scale? h
  exact ⟨hc ▸ hconstant, fun x => hx x ▸ hcoeff x⟩

theorem Fits.of_sub? (hl : l.Fits) (h : l.sub? m = some s) : s.Fits := by
  obtain ⟨m', -, h⟩ := Option.bind_eq_some_iff.mp h
  exact hl.of_add? h

theorem Fits.of_substitute? (hl : l.Fits) (h : l.substitute? x n = some m) : m.Fits := by
  have hcoeff (y : Symbol) : Word.Fits (m.coefficient y) := by
    rw [(terms_substitute? h).2 y]
    split
    · exact Word.fits_zero
    · exact hl.coefficient y
  refine ⟨?_, hcoeff⟩
  rw [substitute?] at h
  split at h
  · cases h
    exact hl.constant
  · simp only [Option.bind_eq_bind, Option.bind_eq_some_iff, Option.pure_def,
      Option.some.injEq] at h
    obtain ⟨p, -, a, ha, rfl⟩ := h
    obtain ⟨hfits, rfl⟩ := Word.fit?_eq_some.mp ha
    exact hfits

theorem Fits.of_fold? {value? : Symbol → Option Int} (hl : l.Fits)
    (h : l.fold? value? = some m) : m.Fits := by
  rw [fold?] at h
  generalize l.support = xs at h
  induction xs generalizing l with
  | nil =>
    obtain rfl : l = m := by simpa using h
    exact hl
  | cons x xs ih =>
    rw [List.foldlM_cons] at h
    obtain ⟨l', hl', h⟩ := Option.bind_eq_some_iff.mp h
    apply ih _ h
    split at hl'
    · exact hl.of_substitute? hl'
    · cases hl'
      exact hl

theorem Reduction.fits {e : Expr} (h : Reduction e l)
    (he : ∀ n s, .int n s ∈ e.nodes → Word.Fits n) : l.Fits := by
  induction h with
  | int n s => exact fits_const (he n s (Expr.mem_nodes_self _))
  | ident x s => exact fits_term x (by decide)
  | plus s h ih => exact ih fun n t hn => he n t (List.mem_cons_of_mem _ hn)
  | neg s h hm ih => exact fits_of_scale? hm
  | add s hl hm hr ihl ihm =>
    apply Fits.of_add? _ hr
    exact ihl fun n t hn => he n t (List.mem_cons_of_mem _ (List.mem_append_left _ hn))
  | sub s hl hm hr ihl ihm =>
    apply Fits.of_sub? _ hr
    exact ihl fun n t hn => he n t (List.mem_cons_of_mem _ (List.mem_append_left _ hn))
  | scaleLeft s hl hm hk hr ihl ihm => exact fits_of_scale? hr
  | scaleRight s hl hm hk hr ihl ihm => exact fits_of_scale? hr

/-- The forms that the operations build from words. -/
inductive Built : Linear → Prop
  | zero : Built zero
  | const {n : Int} (hn : Word.Fits n) : Built (const n)
  | var (x : Symbol) : Built (var x)
  | term (x : Symbol) {c : Int} (hc : Word.Fits c) : Built (term x c)
  | ofExpr {e : Expr} {l : Linear} (he : ∀ n s, .int n s ∈ e.nodes → Word.Fits n)
      (h : ofExpr? e = some l) : Built l
  | add {l m s : Linear} (hl : Built l) (hm : Built m) (h : l.add? m = some s) : Built s
  | sub {l m s : Linear} (hl : Built l) (hm : Built m) (h : l.sub? m = some s) : Built s
  | neg {l s : Linear} (hl : Built l) (h : l.neg? = some s) : Built s
  | scale {l s : Linear} {k : Int} (hl : Built l) (hk : Word.Fits k) (h : l.scale? k = some s) :
      Built s
  | substitute {l s : Linear} {x : Symbol} {n : Int} (hl : Built l) (hn : Word.Fits n)
      (h : l.substitute? x n = some s) : Built s
  | fold {l s : Linear} {value? : Symbol → Option Int} (hl : Built l)
      (hv : ∀ x n, value? x = some n → Word.Fits n) (h : l.fold? value? = some s) : Built s

theorem Built.fits (h : Built l) : l.Fits := by
  induction h with
  | zero => exact fits_const Word.fits_zero
  | const hn => exact fits_const hn
  | var x => exact fits_term x (by decide)
  | term x hc => exact fits_term x hc
  | ofExpr he h => exact (reduction_of_ofExpr? _ h).fits he
  | add hl hm h ihl ihm => exact ihl.of_add? h
  | sub hl hm h ihl ihm => exact ihl.of_sub? h
  | neg hl h ih => exact fits_of_scale? h
  | scale hl hk h ih => exact fits_of_scale? h
  | substitute hl hn h ih => exact ih.of_substitute? h
  | fold hl hv h ih => exact ih.of_fold? h

theorem Fits.isSome_add? (hl : l.Fits) : (l.add? m).isSome ↔
    Word.Fits (l.constant + m.constant) ∧ ∀ x, Word.Fits (l.coefficient x + m.coefficient x) := by
  rw [Linear.isSome_add?]
  apply and_congr_right'
  constructor
  · intro h x
    by_cases hm : m.coefficient x = 0
    · rw [hm, add_zero]
      exact hl.coefficient x
    · exact h x hm
  · intro h x _
    exact h x

theorem Fits.add?_comm (hl : l.Fits) (hm : m.Fits) : l.add? m = m.add? l := by
  have hsome : (l.add? m).isSome ↔ (m.add? l).isSome := by
    rw [hl.isSome_add?, hm.isSome_add?, add_comm]
    apply and_congr_right'
    apply forall_congr'
    intro x
    rw [add_comm]
  cases h : l.add? m with
  | none =>
    rw [h] at hsome
    exact (Option.not_isSome_iff_eq_none.mp fun hs => nomatch hsome.mpr hs).symm
  | some s =>
    obtain ⟨r, hr⟩ := Option.isSome_iff_exists.mp (hsome.mp (Option.isSome_of_eq_some h))
    obtain ⟨hs, hsx⟩ := terms_add? h
    obtain ⟨hr', hrx⟩ := terms_add? hr
    have heq : s = r := by
      apply ext_coefficient
      · rw [hs, hr', add_comm]
      · intro x
        rw [hsx, hrx, add_comm]
    rw [hr, heq]

theorem Fits.isSome_neg? (hl : l.Fits) : l.neg?.isSome ↔
    l.constant ≠ -9223372036854775808 ∧ ∀ x, l.coefficient x ≠ -9223372036854775808 := by
  rw [neg?, isSome_scale?, Word.fits_mul_neg_one hl.constant]
  simp only [fun x => Word.fits_mul_neg_one (hl.coefficient x)]

theorem add?_of_neg? (h : l.neg? = some s) : l.add? s = some zero := by
  obtain ⟨hc, hx⟩ := terms_scale? h
  have hconstant : l.constant + s.constant = 0 := by rw [hc, mul_neg_one, add_neg_cancel]
  have hcoeff (x : Symbol) : l.coefficient x + s.coefficient x = 0 := by
    rw [hx, mul_neg_one, add_neg_cancel]
  have hsome : (l.add? s).isSome := by
    rw [Linear.isSome_add?, hconstant]
    refine ⟨Word.fits_zero, fun x _ => ?_⟩
    rw [hcoeff]
    exact Word.fits_zero
  obtain ⟨z, hz⟩ := Option.isSome_iff_exists.mp hsome
  obtain ⟨hzc, hzx⟩ := terms_add? hz
  have hzero : z = zero := by
    apply ext_coefficient
    · rw [hzc, hconstant]
      rfl
    · intro x
      rw [hzx, hcoeff]
      rfl
  rw [hz, hzero]

/-- Forms built from words are equal exactly if they mean the same. A sum or a multiple is exact,
and it is missing only where one of its terms fits no word. -/
theorem normalForm_of_built (hl : Built l) (hm : Built m) :
    (∀ t ∈ l.terms.entries, t.2 ≠ 0) ∧
      (l = m ↔ ∀ v, l.eval v = m.eval v) ∧
      ((l.add? m).isSome ↔ Word.Fits (l.constant + m.constant) ∧
        ∀ x, Word.Fits (l.coefficient x + m.coefficient x)) ∧
      (∀ s, l.add? m = some s → ∀ v, s.eval v = l.eval v + m.eval v) ∧
      l.add? m = m.add? l ∧
      (∀ k, (l.scale? k).isSome ↔ Word.Fits (l.constant * k) ∧
        ∀ x, Word.Fits (l.coefficient x * k)) ∧
      (∀ k s, l.scale? k = some s → ∀ v, s.eval v = k * l.eval v) ∧
      (l.neg?.isSome ↔ l.constant ≠ -9223372036854775808 ∧
        ∀ x, l.coefficient x ≠ -9223372036854775808) ∧
      ∀ s, l.neg? = some s → l.add? s = some zero := by
  refine ⟨l.nonzero, eq_iff_eval, hl.fits.isSome_add?, ?_, hl.fits.add?_comm hm.fits, ?_, ?_,
    hl.fits.isSome_neg?, ?_⟩
  · exact fun s h v => eval_add? h v
  · exact fun k => isSome_scale?
  · exact fun k s h v => eval_scale? h v
  · exact fun s h => add?_of_neg? h

namespace Edge

/-- `9223372036854775807 * x + -1` -/
def expr : Expr :=
  .binary .add (.binary .mul (.int 9223372036854775807 .none) (.ident 0 .none) .none)
    (.unary .neg (.int 1 .none) .none) .none

def form : Linear := (const (-1)).set 0 9223372036854775807

theorem built : Built form := by
  refine .ofExpr (e := expr) (fun n s hn => ?_) rfl
  simp only [expr, Expr.nodes, List.cons_append, List.nil_append, List.mem_cons, reduceCtorEq,
    Expr.int.injEq, List.not_mem_nil, or_false, false_or] at hn
  obtain ⟨rfl, -⟩ | ⟨rfl, -⟩ := hn <;> decide

end Edge

open Edge in
/-- With the greatest coefficient there is no sum with the variable, in either order, and yet a
negative. -/
theorem normalForm_edge : Built form ∧ Built (var 0) ∧
    form.add? (var 0) = none ∧ (var 0).add? form = none ∧
    ∃ s, form.neg? = some s ∧ form.add? s = some zero := by
  obtain ⟨-, -, hadd, -, hcomm, -, -, hneg, hcancel⟩ := normalForm_of_built built (.var 0)
  have hnone : form.add? (var 0) = none := by
    rw [← Option.not_isSome_iff_eq_none, hadd]
    intro h
    exact absurd (h.2 0) (by decide)
  have hsome : form.neg?.isSome := by
    rw [hneg]
    refine ⟨by decide, fun x => ?_⟩
    rw [form, coefficient_set]
    split
    · decide
    · have hzero : (const (-1)).coefficient x = 0 := rfl
      rw [hzero]
      decide
  obtain ⟨s, hs⟩ := Option.isSome_iff_exists.mp hsome
  exact ⟨built, .var 0, hnone, hcomm ▸ hnone, s, hs, hcancel s hs⟩

end Linear

end LoopLegality

import LoopLegality.Linear
import Mathlib.Tactic.Ring

namespace LoopLegality

namespace Linear

variable {v w : Symbol → Int}

theorem sumOf_congr {ts : List (Symbol × Int)} (h : ∀ t ∈ ts, v t.1 = w t.1) :
    sumOf v ts = sumOf w ts := by
  induction ts with
  | nil => rfl
  | cons t ts ih =>
    rw [sumOf, sumOf, h t List.mem_cons_self, ih fun u hu => h u (List.mem_cons_of_mem _ hu)]

theorem sumOf_insertEntry (v : Symbol → Int) (k : Symbol) (c : Int) {ts : List (Symbol × Int)}
    (hs : ts.Pairwise (fun a b => a.1 < b.1)) :
    sumOf v (IndexMap.insertEntry k c ts) =
      sumOf v ts + (c - (IndexMap.find k ts).getD 0) * v k := by
  induction ts with
  | nil => simp [IndexMap.insertEntry, IndexMap.find, sumOf]
  | cons t ts ih =>
    obtain ⟨ht, hs⟩ := List.pairwise_cons.mp hs
    rw [IndexMap.insertEntry]
    split
    · next hk =>
      have hn : IndexMap.find k (t :: ts) = none := by
        apply IndexMap.find_eq_none
        intro e he
        obtain rfl | he := List.mem_cons.mp he
        · exact hk
        · exact hk.trans (ht e he)
      simp only [hn, Option.getD_none, sumOf]
      ring
    · split
      · next hk =>
        subst hk
        simp only [IndexMap.find, if_true, Option.getD_some, sumOf]
        ring
      · next hk =>
        simp only [IndexMap.find, if_neg (Ne.symm hk), sumOf, ih hs]
        ring

theorem sumOf_erase (v : Symbol → Int) (k : Symbol) {ts : List (Symbol × Int)}
    (hs : ts.Pairwise (fun a b => a.1 < b.1)) :
    sumOf v (ts.filter fun t => t.1 != k) = sumOf v ts - (IndexMap.find k ts).getD 0 * v k := by
  induction ts with
  | nil => simp [IndexMap.find, sumOf]
  | cons t ts ih =>
    obtain ⟨ht, hs⟩ := List.pairwise_cons.mp hs
    by_cases hk : t.1 = k
    · have hn : IndexMap.find k ts = none := IndexMap.find_eq_none (hk ▸ ht)
      have hr := ih hs
      simp only [hn, Option.getD_none] at hr
      simp [hk, IndexMap.find, sumOf, hr]
    · simp only [List.filter_cons, bne_iff_ne, ne_eq, hk, not_false_iff, if_true, sumOf, ih hs,
        IndexMap.find, if_false]
      ring

theorem eval_erase (l : Linear) (x : Symbol) (v : Symbol → Int) :
    (l.erase x).eval v = l.eval v - l.coefficient x * v x := by
  rw [eval, eval, Int.add_sub_assoc]
  exact congrArg (l.constant + ·) (sumOf_erase v x l.terms.sorted)

theorem constant_set (l : Linear) (x : Symbol) (c : Int) : (l.set x c).constant = l.constant := by
  unfold set
  split <;> rfl

theorem eval_set (l : Linear) (x : Symbol) (c : Int) (v : Symbol → Int) :
    (l.set x c).eval v = l.eval v + (c - l.coefficient x) * v x := by
  unfold set
  split
  · next hc =>
    rw [eval_erase, hc]
    ring
  · rw [eval, eval, Int.add_assoc]
    exact congrArg (l.constant + ·) (sumOf_insertEntry v x c l.terms.sorted)

theorem eval_substitute {l m : Linear} {x : Symbol} {n : Int} (h : l.substitute? x n = some m)
    (hx : v x = n) : m.eval v = l.eval v := by
  rw [substitute?] at h
  split at h
  · obtain rfl : l = m := by simpa using h
    rfl
  · next c hc =>
    simp only [Option.bind_eq_bind, Option.bind_eq_some_iff, Option.pure_def,
      Option.some.injEq] at h
    obtain ⟨p, hp, k, hk, rfl⟩ := h
    have herase := eval_erase l x v
    rw [coefficient, hc, Option.getD_some, hx, ← Word.eq_of_mul? hp, eval] at herase
    have hconstant : (l.erase x).constant = l.constant := rfl
    rw [eval, Word.eq_of_add? hk]
    dsimp only
    omega

theorem eval_fold {l m : Linear} {value? : Symbol → Option Int} (h : l.fold? value? = some m)
    (hv : ∀ x n, value? x = some n → v x = n) : m.eval v = l.eval v := by
  rw [fold?] at h
  generalize l.support = xs at h
  induction xs generalizing l with
  | nil =>
    obtain rfl : l = m := by simpa using h
    rfl
  | cons x xs ih =>
    simp only [List.foldlM_cons, Option.bind_eq_bind, Option.bind_eq_some_iff] at h
    obtain ⟨l', hl, h⟩ := h
    rw [ih h]
    split at hl
    · next n hn => exact eval_substitute hl (hv x n hn)
    · obtain rfl : l = l' := by simpa using hl
      rfl

theorem eval_congr {l : Linear} (h : ∀ y ∈ l.support, v y = w y) : l.eval v = l.eval w := by
  have hsum : sumOf v l.terms.entries = sumOf w l.terms.entries :=
    sumOf_congr fun t ht => h t.1 (List.mem_map_of_mem ht)
  rw [eval, eval, hsum]

theorem eval_update {l : Linear} {x : Symbol} (hx : x ∉ l.support) (n : Int) :
    l.eval (Function.update v x n) = l.eval v := by
  apply eval_congr
  intro y hy
  have hne : y ≠ x := fun he => hx (he ▸ hy)
  exact Function.update_of_ne hne n v

theorem eval_const (n : Int) (v : Symbol → Int) : (const n).eval v = n := Int.add_zero n

theorem eval_var (x : Symbol) (v : Symbol → Int) : (var x).eval v = v x := by
  have hzero : zero.coefficient x = 0 := rfl
  rw [var, term, eval_set, zero, eval_const, ← zero, hzero]
  ring

theorem eval_of_constant? {l : Linear} {n : Int} (h : l.constant? = some n) (v : Symbol → Int) :
    l.eval v = n := by
  rw [constant?] at h
  split at h
  · next he =>
    have hnil : l.terms.entries = [] := List.isEmpty_iff.mp he
    simpa [eval, hnil, sumOf] using h
  · cases h

theorem eval_addTerms (v : Symbol → Int) {es : List (Symbol × Int)} {l m : Linear}
    (h : es.foldlM addTerm? l = some m) : m.eval v = l.eval v + sumOf v es := by
  induction es generalizing l with
  | nil =>
    obtain rfl : l = m := by simpa using h
    simp [sumOf]
  | cons e es ih =>
    simp only [List.foldlM_cons, addTerm?, Option.bind_eq_bind, Option.bind_eq_some_iff,
      Option.pure_def, Option.some.injEq] at h
    obtain ⟨_, ⟨c, hc, rfl⟩, h⟩ := h
    rw [ih h, eval_set, Word.eq_of_add? hc, sumOf]
    ring

theorem eval_add? {l m s : Linear} (h : l.add? m = some s) (v : Symbol → Int) :
    s.eval v = l.eval v + m.eval v := by
  obtain ⟨c, hc, h⟩ := Option.bind_eq_some_iff.mp h
  rw [eval_addTerms v h, eval, eval, eval, Word.eq_of_add? hc]
  ring

theorem sumOf_scaleTerms (v : Symbol → Int) {k : Int} {es : List (Symbol × Int)}
    {ts ts' : IndexMap Int} (hs : es.Pairwise (fun a b => a.1 < b.1))
    (hnew : ∀ e ∈ es, ts.get? e.1 = none) (h : es.foldlM (scaleTerm? k) ts = some ts') :
    sumOf v ts'.entries = sumOf v ts.entries + k * sumOf v es := by
  induction es generalizing ts with
  | nil =>
    obtain rfl : ts = ts' := by simpa using h
    simp [sumOf]
  | cons e es ih =>
    simp only [List.foldlM_cons, scaleTerm?, Option.bind_eq_bind, Option.bind_eq_some_iff,
      Option.pure_def, Option.some.injEq] at h
    obtain ⟨_, ⟨c, hc, rfl⟩, h⟩ := h
    obtain ⟨hlt, hs⟩ := List.pairwise_cons.mp hs
    have hfind : IndexMap.find e.1 ts.entries = none := hnew e List.mem_cons_self
    -- the keys come in ascending order, so none replaces another
    have hrest : ∀ d ∈ es, (ts.insert e.1 c).get? d.1 = none := by
      intro d hd
      rw [IndexMap.get?_insert, if_neg (hlt d hd).ne]
      exact hnew d (List.mem_cons_of_mem _ hd)
    rw [ih hs hrest h, IndexMap.insert, sumOf_insertEntry v e.1 c ts.sorted, hfind,
      Word.eq_of_mul? hc, sumOf, Option.getD_none]
    ring

theorem scale?_eq_some {l s : Linear} {k : Int} (hk : k ≠ 0) : l.scale? k = some s ↔
    l.terms.entries.foldlM (scaleTerm? k) .empty = some s.terms ∧
      Word.mul? l.constant k = some s.constant := by
  rw [scale?, dif_neg hk]
  split
  · next h => simp [h]
  · next ts h =>
    simp only [Option.bind_eq_bind, Option.bind_eq_some_iff, Option.pure_def, Option.some.injEq, h]
    constructor
    · rintro ⟨c, hc, rfl⟩
      exact ⟨rfl, hc⟩
    · rintro ⟨rfl, hc⟩
      exact ⟨s.constant, hc, rfl⟩

theorem eval_scale? {l s : Linear} {k : Int} (h : l.scale? k = some s) (v : Symbol → Int) :
    s.eval v = k * l.eval v := by
  by_cases hk : k = 0
  · subst hk
    cases h
    rw [zero, eval_const, zero_mul]
  · obtain ⟨hts, hc⟩ := (scale?_eq_some hk).mp h
    have hsum := sumOf_scaleTerms v l.terms.sorted (fun e _ => IndexMap.get?_empty e.1) hts
    have hempty : sumOf v (IndexMap.empty : IndexMap Int).entries = 0 := rfl
    rw [eval, hsum, hempty, Word.eq_of_mul? hc, eval]
    ring

theorem eval_neg? {l s : Linear} (h : l.neg? = some s) (v : Symbol → Int) :
    s.eval v = -l.eval v := by
  rw [eval_scale? h, neg_one_mul]

theorem eval_sub? {l m s : Linear} (h : l.sub? m = some s) (v : Symbol → Int) :
    s.eval v = l.eval v - m.eval v := by
  obtain ⟨n, hn, h⟩ := Option.bind_eq_some_iff.mp h
  rw [eval_add? h, eval_neg? hn, sub_eq_add_neg]

end Linear

end LoopLegality

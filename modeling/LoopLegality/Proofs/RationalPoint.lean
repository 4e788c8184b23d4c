import LoopLegality.Proofs.Feasibility

namespace LoopLegality

namespace Row

def valueAt (r : Row) (x : Nat → Rat) : Rat := (RatRow.ofRow r).value x

/-- A point with rational coordinates satisfies the inequality of a row. -/
def HoldsAt (r : Row) (x : Nat → Rat) : Prop := r.valueAt x ≤ r.rhs

def SolvesAt (r : Row) (x : Nat → Rat) : Prop := r.valueAt x = r.rhs

variable {r s e : Row} {x : Nat → Rat} {v : Nat}

theorem valueAt_eq_sum (r : Row) (x : Nat → Rat) :
    r.valueAt x = ∑ w ∈ Finset.range r.coeffs.length, (r.coeff w : Rat) * x w := by
  rw [valueAt, RatRow.value, RatRow.dotFrom_eq_sum, RatRow.ofRow, List.length_map]
  refine Finset.sum_congr rfl fun w _ => ?_
  rw [Nat.zero_add, ← Int.cast_zero, List.getD_map]
  rfl

theorem coeff_of_length_le (h : r.coeffs.length ≤ v) : r.coeff v = 0 := by
  simp [coeff, h]

theorem valueAt_update (r : Row) (x : Nat → Rat) (v : Nat) (q : Rat) :
    r.valueAt (Function.update x v q) = r.valueAt x + r.coeff v * (q - x v) := by
  have hterm (w : Nat) : (r.coeff w : Rat) * Function.update x v q w =
      r.coeff w * x w + if w = v then r.coeff v * (q - x v) else 0 := by
    by_cases hw : w = v
    · subst hw
      rw [Function.update_self, if_pos rfl]
      ring
    · rw [Function.update_of_ne hw, if_neg hw, add_zero]
  simp only [valueAt_eq_sum, hterm, Finset.sum_add_distrib, Finset.sum_ite_eq', Finset.mem_range]
  split
  · rfl
  · next hv => simp [coeff_of_length_le (not_lt.mp hv)]

theorem isTrivial_iff : r.isTrivial = true ↔ ∀ w < r.coeffs.length, r.coeff w = 0 := by
  simp only [isTrivial, List.all_eq_true, beq_iff_eq, coeff]
  constructor
  · intro h w hw
    rw [List.getD_eq_getElem _ _ hw]
    exact h _ (List.getElem_mem hw)
  · intro h c hc
    obtain ⟨w, hw, rfl⟩ := List.getElem_of_mem hc
    simpa [hw] using h w hw

theorem valueAt_of_isTrivial (h : r.isTrivial = true) (x : Nat → Rat) : r.valueAt x = 0 := by
  rw [valueAt_eq_sum]
  refine Finset.sum_eq_zero fun w hw => ?_
  rw [isTrivial_iff.mp h w (Finset.mem_range.mp hw), Int.cast_zero, zero_mul]

theorem valueAt_of_substitute (h : substitute? e v r = some s)
    (hlen : r.coeffs.length = e.coeffs.length) (x : Nat → Rat) :
    r.valueAt x = s.valueAt x + r.coeff v * e.coeff v * e.valueAt x := by
  obtain ⟨hl, hcoeff, -⟩ := substitute?_spec h hlen
  simp only [valueAt_eq_sum, hl, ← hlen, hcoeff, Int.cast_sub, Int.cast_mul, sub_mul,
    Finset.sum_sub_distrib, Finset.mul_sum, mul_assoc]
  ring

theorem coeff_of_substitute (h : substitute? e v r = some s)
    (hlen : r.coeffs.length = e.coeffs.length) (hunit : e.coeff v * e.coeff v = 1) :
    s.coeff v = 0 := by
  rw [(substitute?_spec h hlen).2.1 v, mul_assoc, hunit, mul_one, sub_self]

theorem valueAt_intCast (r : Row) (z : Nat → Int) : r.valueAt (fun v => (z v : Rat)) = r.value z :=
  RatRow.dotFrom_map_cast z 0 r.coeffs

def Integral (x : Nat → Rat) : Prop := ∃ z : Nat → Int, x = fun v => (z v : Rat)

/-- The value of an unknown that an equation with a unit coefficient asks for. -/
def solution (e : Row) (v : Nat) (x : Nat → Rat) : Rat := x v + e.coeff v * (e.rhs - e.valueAt x)

theorem solvesAt_solution (hunit : e.coeff v * e.coeff v = 1) (x : Nat → Rat) :
    e.SolvesAt (Function.update x v (e.solution v x)) := by
  have hunit' : (e.coeff v : Rat) * e.coeff v = 1 := by exact_mod_cast hunit
  rw [SolvesAt, valueAt_update, solution, add_sub_cancel_left, ← mul_assoc, hunit', one_mul,
    add_sub_cancel]

theorem Integral.update_solution (hx : Integral x) (e : Row) (v : Nat) :
    Integral (Function.update x v (e.solution v x)) := by
  obtain ⟨z, rfl⟩ := hx
  refine ⟨Function.update z v (z v + e.coeff v * (e.rhs - e.value z)), ?_⟩
  funext w
  by_cases hw : w = v
  · subst hw
    simp [solution, valueAt_intCast]
  · simp [hw]

theorem at_solution (h : substitute? e v r = some s) (hlen : r.coeffs.length = e.coeffs.length)
    (hunit : e.coeff v * e.coeff v = 1) (x : Nat → Rat) :
    (s.HoldsAt x → r.HoldsAt (Function.update x v (e.solution v x))) ∧
      (s.SolvesAt x → r.SolvesAt (Function.update x v (e.solution v x))) := by
  have hsolved := solvesAt_solution hunit x
  have hs : s.valueAt (Function.update x v (e.solution v x)) = s.valueAt x := by
    rw [valueAt_update, coeff_of_substitute h hlen hunit, Int.cast_zero, zero_mul, add_zero]
  have hrhs : (r.rhs : Rat) = s.rhs + r.coeff v * e.coeff v * e.rhs := by
    rw [(substitute?_spec h hlen).2.2]
    push_cast
    ring
  unfold HoldsAt SolvesAt at *
  rw [valueAt_of_substitute h hlen, hsolved, hs, hrhs]
  exact ⟨fun h => by linarith, fun h => by rw [h]⟩

end Row

namespace RatRow

theorem holdsAt_of_reduce {r : Row} {x : Nat → Rat} (h : (reduce r).HoldsAt x) : r.HoldsAt x := by
  unfold reduce divideBy at h
  split at h
  · next hg =>
    have hd := fun c (hc : c ∈ r.coeffs) => Row.content_dvd hc
    generalize r.content = g at hg hd h
    have hpos : (0 : Rat) < g := by exact_mod_cast Nat.zero_lt_of_lt hg
    have hvalue : r.valueAt x = g * Row.valueAt ⟨r.coeffs.map (· / (g : Int)), r.rhs / g⟩ x := by
      simp only [Row.valueAt_eq_sum, List.length_map, Finset.mul_sum]
      refine Finset.sum_congr rfl fun w hw => ?_
      have hw' : w < r.coeffs.length := Finset.mem_range.mp hw
      have hc : (g : Int) * (r.coeffs[w] / g) = r.coeffs[w] :=
        Int.mul_ediv_cancel' (hd _ (List.getElem_mem hw'))
      simp only [Row.coeff, List.getD_eq_getElem?_getD, List.getElem?_map, hw',
        List.getElem?_eq_getElem, Option.map_some, Option.getD_some]
      rw [← mul_assoc]
      congr 1
      exact_mod_cast hc.symm
    have hfloor : (g : Rat) * (r.rhs / g : Int) ≤ r.rhs := by
      exact_mod_cast Int.mul_ediv_self_le (by omega)
    calc r.valueAt x = g * Row.valueAt ⟨r.coeffs.map (· / (g : Int)), r.rhs / g⟩ x := hvalue
      _ ≤ g * (r.rhs / g : Int) := mul_le_mul_of_nonneg_left h hpos.le
      _ ≤ r.rhs := hfloor
  · exact h

theorem holds_of_tighten {r : RatRow} {s : Row} (h : r.tighten = .ok s) {x : Nat → Rat}
    (hs : s.HoldsAt x) : r.Holds x := by
  obtain ⟨t, rfl, -, l, hl, hvalue, hrhs⟩ := exists_of_tighten h
  have ht : t.valueAt x ≤ t.rhs := holdsAt_of_reduce hs
  rw [Row.valueAt, hvalue, hrhs] at ht
  exact le_of_mul_le_mul_left ht hl

end RatRow

namespace ConstraintSystem

variable {n : Nat} {x : Nat → Rat}

/-- A point with rational coordinates that satisfies every row and every equation. -/
def SatisfiesAt (s : ConstraintSystem) (x : Nat → Rat) : Prop :=
  (∀ r ∈ s.rows, r.HoldsAt x) ∧ ∀ r ∈ s.equations, r.SolvesAt x

theorem exists_between (ls us : List Rat) (h : ∀ l ∈ ls, ∀ u ∈ us, l ≤ u) :
    ∃ q, (∀ l ∈ ls, l ≤ q) ∧ ∀ u ∈ us, q ≤ u := by
  cases hmax : ls.max? with
  | none =>
    obtain rfl := List.max?_eq_none_iff.mp hmax
    obtain ⟨q, hq⟩ := us.toFinset.bddBelow
    exact ⟨q, nofun, fun u hu => hq (by simpa using hu)⟩
  | some q =>
    obtain ⟨hmem, hle⟩ := List.max?_eq_some_iff.mp hmax
    exact ⟨q, hle, h q hmem⟩

/-- The value at which moving one coordinate brings a row to its limit. -/
def limit (v : Nat) (x : Nat → Rat) (r : Row) : Rat := x v + (r.rhs - r.valueAt x) / r.coeff v

theorem holdsAt_update_pos {v : Nat} {r : Row} (h : 0 < r.coeff v) {q : Rat} :
    r.HoldsAt (Function.update x v q) ↔ q ≤ limit v x r := by
  have h' : (0 : Rat) < r.coeff v := by exact_mod_cast h
  rw [Row.HoldsAt, Row.valueAt_update, limit, ← sub_le_iff_le_add', le_div_iff₀ h']
  constructor <;> intro _ <;> linarith

theorem holdsAt_update_neg {v : Nat} {r : Row} (h : r.coeff v < 0) {q : Rat} :
    r.HoldsAt (Function.update x v q) ↔ limit v x r ≤ q := by
  have h' : (r.coeff v : Rat) < 0 := by exact_mod_cast h
  have hlimit : limit v x r ≤ q ↔ (r.rhs - r.valueAt x) / r.coeff v ≤ q - x v :=
    le_sub_iff_add_le'.symm
  rw [hlimit, div_le_iff_of_neg h', Row.HoldsAt, Row.valueAt_update]
  constructor <;> intro _ <;> linarith

/-- If the combination of two rows holds, the lower limit is not beyond the upper one. -/
theorem limit_le_limit {v : Nat} {p m s : Row} {c : RatRow} (hc : RatRow.combine v p m = .ok c)
    (ht : c.tighten = .ok s) (hlen : p.coeffs.length = m.coeffs.length) (hp : 0 < p.coeff v)
    (hm : m.coeff v < 0) (hs : s.HoldsAt x) : limit v x m ≤ limit v x p := by
  obtain ⟨-, hvalue, hrhs⟩ := RatRow.combine_spec hc hlen hp hm
  have hcx : c.value x ≤ c.rhs := RatRow.holds_of_tighten ht hs
  rw [hvalue, hrhs] at hcx
  simp only [limit, Row.valueAt, sub_div]
  linarith

/-- A point that satisfies what elimination leaves can be moved along the unknown to one that
satisfies all rows. -/
theorem exists_of_eliminate {v : Nat} {rs ss : List Row} (h : eliminate v rs = .ok ss)
    (hlen : ∀ r ∈ rs, r.coeffs.length = n) (hx : ∀ s ∈ ss, s.HoldsAt x) :
    ∃ q, ∀ r ∈ rs, r.HoldsAt (Function.update x v q) := by
  obtain ⟨-, hfree, hcombined⟩ := mem_eliminate h
  have hlimits : ∀ l ∈ (rs.filter fun r => r.coeff v < 0).map (limit v x),
      ∀ u ∈ (rs.filter fun r => 0 < r.coeff v).map (limit v x), l ≤ u := by
    simp only [List.forall_mem_map, List.mem_filter, decide_eq_true_eq]
    rintro m ⟨hm, hneg⟩ p ⟨hp, hpos⟩
    obtain ⟨s, hs, c, hc, ht⟩ := hcombined p hp m hm hpos hneg
    exact limit_le_limit hc ht ((hlen p hp).trans (hlen m hm).symm) hpos hneg (hx s hs)
  obtain ⟨q, hlower, hupper⟩ := exists_between _ _ hlimits
  refine ⟨q, fun r hr => ?_⟩
  obtain hneg | hzero | hpos := lt_trichotomy (r.coeff v) 0
  · exact (holdsAt_update_neg hneg).mpr (hlower _ (List.mem_map_of_mem (by simp [hr, hneg])))
  · have hr' := hx r (hfree r hr hzero)
    rwa [Row.HoldsAt, Row.valueAt_update, hzero, Int.cast_zero, zero_mul, add_zero]
  · exact (holdsAt_update_pos hpos).mpr (hupper _ (List.mem_map_of_mem (by simp [hr, hpos])))

theorem foldl_of_mem {α : Type} {f : Option α → α → Option α} {P : Option α → Prop}
    (hf : ∀ b c, f (some b) c = some b ∨ f (some b) c = some c) (cs : List α) (b : α)
    (hP : ∀ c ∈ b :: cs, P (some c)) : P (cs.foldl f (some b)) := by
  induction cs generalizing b with
  | nil => exact hP b List.mem_cons_self
  | cons a cs ih =>
    rw [List.forall_mem_cons, List.forall_mem_cons] at hP
    obtain ⟨hb, ha, hcs⟩ := hP
    rw [List.foldl_cons]
    obtain hkeep | htake := hf b a
    · rw [hkeep]
      exact ih b (List.forall_mem_cons.mpr ⟨hb, hcs⟩)
    · rw [htake]
      exact ih a (List.forall_mem_cons.mpr ⟨ha, hcs⟩)

theorem cheapest?_cases (n : Nat) (rs : List Row) :
    (cheapest? n rs = none ∧ ∀ r ∈ rs, ∀ v < n, r.coeff v = 0) ∨
      ∃ v < n, cheapest? n rs = some v ∧ ∃ r ∈ rs, r.coeff v ≠ 0 := by
  have hcount (v : Nat) : countWhere (fun r => 0 < r.coeff v) rs +
      countWhere (fun r => r.coeff v < 0) rs = 0 ↔ ∀ r ∈ rs, r.coeff v = 0 := by
    simp only [countWhere, Nat.add_eq_zero_iff, List.length_eq_zero_iff, List.filter_eq_nil_iff,
      decide_eq_true_eq, ← forall_and]
    exact forall₂_congr fun r _ => by omega
  rw [cheapest?]
  dsimp only
  cases hcosts : List.filterMap _ (List.range n) with
  | nil =>
    refine Or.inl ⟨rfl, fun r hr v hv => ?_⟩
    have hv' := List.filterMap_eq_nil_iff.mp hcosts v (List.mem_range.mpr hv)
    simp only [ite_eq_left_iff, reduceCtorEq, imp_false, not_not] at hv'
    exact (hcount v).mp hv' r hr
  | cons b costs =>
    refine Or.inr (foldl_of_mem (P := fun o => ∃ v < n, o.map Prod.snd = some v ∧
      ∃ r ∈ rs, r.coeff v ≠ 0) (fun b c => by grind) costs b fun c hc => ?_)
    rw [← hcosts] at hc
    obtain ⟨v, hv, hvc⟩ := List.mem_filterMap.mp hc
    simp only [Option.ite_none_left_eq_some, Option.some.injEq] at hvc
    obtain ⟨hne, rfl⟩ := hvc
    refine ⟨v, List.mem_range.mp hv, rfl, ?_⟩
    by_contra hall
    push Not at hall
    exact hne ((hcount v).mpr hall)

theorem exists_of_eliminateAll {k : Nat} {rs : List Row}
    (h : eliminateAll n k rs = .ok .feasible) (hlen : ∀ r ∈ rs, r.coeffs.length = n) :
    ∃ x, ∀ r ∈ rs, r.HoldsAt x := by
  induction k generalizing rs with
  | zero => cases h
  | succ k ih =>
    obtain ⟨-, h⟩ | ⟨hno, hrest⟩ := eliminateAll_succ h
    · cases h
    · have htrivial (x : Nat → Rat) (r : Row) (hr : r ∈ rs) (ht : r.isTrivial = true) :
          r.HoldsAt x := by
        rw [Row.HoldsAt, Row.valueAt_of_isTrivial ht]
        by_contra hneg
        refine hno (List.any_eq_true.mpr ⟨r, hr, ?_⟩)
        simpa [ht] using hneg
      have hlen' : ∀ r ∈ Row.normalize (rs.filter (!·.isTrivial)), r.coeffs.length = n :=
        fun r hr => hlen r (List.mem_filter.mp (Row.mem_normalize.mp hr)).1
      -- it is enough to satisfy the rows that are not trivial
      suffices ∃ x, ∀ r ∈ Row.normalize (rs.filter (!·.isTrivial)), r.HoldsAt x by
        obtain ⟨x, hx⟩ := this
        refine ⟨x, fun r hr => ?_⟩
        by_cases ht : r.isTrivial = true
        · exact htrivial x r hr ht
        · exact hx r (by simp [hr, ht])
      obtain ⟨hnone, -⟩ | ⟨v, ss, -, hss, h⟩ := hrest
      · refine ⟨0, fun r hr => ?_⟩
        obtain ⟨-, hzero⟩ | ⟨v, -, hsome, -⟩ := cheapest?_cases n
          (Row.normalize (rs.filter (!·.isTrivial)))
        · have ht := Row.isTrivial_iff.mpr fun w hw => hzero r hr w (hlen' r hr ▸ hw)
          simp [ht] at hr
        · rw [hnone] at hsome
          cases hsome
      · obtain ⟨x, hx⟩ := ih h (length_eliminate hss hlen')
        obtain ⟨q, hq⟩ := exists_of_eliminate hss hlen' hx
        exact ⟨_, hq⟩

theorem mem_swapRemove_of_mem {α : Type} {k : Nat} {xs : List α} {a b : α}
    (hk : xs[k]? = some a) (hb : b ∈ xs) : b = a ∨ b ∈ swapRemove k xs := by
  obtain ⟨i, hi, rfl⟩ := List.getElem_of_mem hb
  obtain ⟨hklt, rfl⟩ := List.getElem?_eq_some_iff.mp hk
  have hlast : xs.getLast? = some xs[xs.length - 1] := by
    rw [List.getLast?_eq_getElem?, List.getElem?_eq_getElem]
  rw [swapRemove, hlast]
  dsimp only
  by_cases hik : i = k
  · subst hik
    exact Or.inl rfl
  · -- the last element is found where the removed one stood
    refine Or.inr (List.mem_iff_getElem?.mpr ?_)
    by_cases hil : i = xs.length - 1
    · have hk' : k < xs.length - 1 := by omega
      refine ⟨k, ?_⟩
      simp [hk', hil]
    · have hi' : i < xs.length - 1 := by omega
      refine ⟨i, ?_⟩
      simp [hi', List.getElem_set_ne (Ne.symm hik)]

/-- A point that satisfies what is left when equations are solved can be moved, one solved unknown
at a time, to one that satisfies them all. An integer point stays one. -/
theorem exists_of_solveUnits {k : Nat} {es rs es' rs' : List Row}
    (h : solveUnits k es rs = .ok (es', rs')) (hes : ∀ e ∈ es, e.coeffs.length = n)
    (hrs : ∀ r ∈ rs, r.coeffs.length = n) (hesx : ∀ e ∈ es', e.SolvesAt x)
    (hrsx : ∀ r ∈ rs', r.HoldsAt x) :
    ∃ y, (∀ e ∈ es, e.SolvesAt y) ∧ (∀ r ∈ rs, r.HoldsAt y) ∧
      (Row.Integral x → Row.Integral y) := by
  induction k generalizing es rs with
  | zero =>
    cases h
    exact ⟨x, hesx, hrsx, id⟩
  | succ k ih =>
    obtain ⟨-, rfl, rfl⟩ | ⟨j, e, v, es₁, rs₁, hs, hes₁, hrs₁, h⟩ := solveUnits_succ.mp h
    · exact ⟨x, hesx, hrsx, id⟩
    · obtain ⟨hj, hunit⟩ := solvable_spec hs
      have hle : e.coeffs.length = n := hes e (List.mem_of_getElem? hj)
      obtain ⟨y, hesy, hrsy, hint⟩ := ih h
        (fun s hs => by
          obtain ⟨r, hr, hsub⟩ := exists_of_mem_right hes₁ hs
          exact Row.length_substitute hsub hle (hes r (mem_of_mem_swapRemove hr)))
        (fun s hs => by
          obtain ⟨r, hr, hsub⟩ := exists_of_mem_right hrs₁ hs
          exact Row.length_substitute hsub hle (hrs r hr))
      refine ⟨Function.update y v (e.solution v y), fun r hr => ?_, fun r hr => ?_,
        fun hx => (hint hx).update_solution e v⟩
      · obtain rfl | hr' := mem_swapRemove_of_mem hj hr
        · exact Row.solvesAt_solution hunit y
        · obtain ⟨s, hs, hsub⟩ := exists_of_mem_left hes₁ hr'
          exact (Row.at_solution hsub ((hes r hr).trans hle.symm) hunit y).2 (hesy s hs)
      · obtain ⟨s, hs, hsub⟩ := exists_of_mem_left hrs₁ hr
        exact (Row.at_solution hsub ((hrs r hr).trans hle.symm) hunit y).1 (hrsy s hs)

theorem solvesAt_of_asInequalities {es rs : List Row} (h : asInequalities? es = some rs)
    (hx : ∀ r ∈ rs, r.HoldsAt x) : ∀ e ∈ es, e.SolvesAt x := by
  intro e he
  obtain ⟨hmem, m, hm, hneg⟩ := (mem_asInequalities h).2 e he
  obtain ⟨hlen, hcoeff, hrhs⟩ := Row.neg?_spec hneg
  have hle : e.valueAt x ≤ e.rhs := hx e hmem
  have hge : m.valueAt x ≤ m.rhs := hx m hm
  have hvalue : m.valueAt x = -e.valueAt x := by
    simp only [Row.valueAt_eq_sum, hlen, hcoeff, Int.cast_neg, neg_mul, Finset.sum_neg_distrib]
  rw [hvalue, hrhs, Int.cast_neg, neg_le_neg_iff] at hge
  exact le_antisymm hle hge

/-- A system that elimination calls feasible has a point with rational coordinates. -/
theorem exists_satisfiesAt_of_feasible (s : ConstraintSystem) (h : s.feasibility = .ok .feasible) :
    ∃ x, s.SatisfiesAt x := by
  obtain h | ⟨-, h⟩ := feasibility_eq_ok.mp h
  · obtain ⟨es, rs, hs, ⟨-, h⟩ | ⟨-, ps, ts, hp, ht, h⟩⟩ := settle_eq_ok h
    · cases h
    · obtain ⟨hes, hrs⟩ := length_solveUnits hs s.equations_length s.rows_length
      have hlen : ∀ r ∈ ps ++ rs, r.coeffs.length = s.vars := by
        intro r hr
        obtain hr | hr := List.mem_append.mp hr
        · exact length_asInequalities hp hes r hr
        · exact hrs r hr
      obtain ⟨x, hx⟩ := exists_of_eliminateAll h (length_tightened ht hlen)
      have hx' : ∀ r ∈ ps ++ rs, r.HoldsAt x := by
        intro r hr
        obtain ⟨t, ht, htight⟩ := exists_of_mem_left (mapM_eq_ok.mp ht) hr
        exact RatRow.holds_of_tighten htight (hx t ht)
      obtain ⟨y, hesy, hrsy, -⟩ := exists_of_solveUnits hs s.equations_length s.rows_length
        (solvesAt_of_asInequalities hp fun r hr => hx' r (List.mem_append_left _ hr))
        fun r hr => hx' r (List.mem_append_right _ hr)
      exact ⟨y, hrsy, hesy⟩
  · cases h

/-- Two strips of the plane that meet between the integer points, and a sum to be solved for. -/
theorem exists_satisfiesAt_strips :
    (((((((empty 3).addEq [1, 1, -1] 0).addLe [11, 13, 0] 45).addLe [-11, -13, 0] (-27)).addLe
      [7, -9, 0] 4).addLe [-7, 9, 0] 10)).feasibility = .ok .feasible ∧
    ∃ x, (((((((empty 3).addEq [1, 1, -1] 0).addLe [11, 13, 0] 45).addLe [-11, -13, 0] (-27)).addLe
      [7, -9, 0] 4).addLe [-7, 9, 0] 10)).SatisfiesAt x :=
  have h : (((((((empty 3).addEq [1, 1, -1] 0).addLe [11, 13, 0] 45).addLe [-11, -13, 0]
      (-27)).addLe [7, -9, 0] 4).addLe [-7, 9, 0] 10)).feasibility = .ok .feasible := by cbv
  ⟨h, exists_satisfiesAt_of_feasible _ h⟩

end ConstraintSystem

end LoopLegality

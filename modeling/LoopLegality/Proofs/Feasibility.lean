import LoopLegality.Proofs.Tighten

namespace LoopLegality

namespace Row

theorem value_of_isTrivial {r : Row} (h : r.isTrivial = true) (x : Nat → Int) :
    r.value x = 0 := by
  have hz : ∀ c ∈ r.coeffs, (0 : Int) ∣ c := by
    intro c hc
    have := List.all_eq_true.mp h c hc
    exact zero_dvd_iff.mpr (by simpa using this)
  exact zero_dvd_iff.mp (dvd_dotFrom x 0 hz)

theorem neg?_spec {r s : Row} (h : r.neg? = some s) :
    s.coeffs.length = r.coeffs.length ∧ (∀ w, s.coeff w = -r.coeff w) ∧ s.rhs = -r.rhs := by
  simp only [neg?, Option.bind_eq_bind, Option.bind_eq_some_iff, Option.pure_def,
    Option.some.injEq] at h
  obtain ⟨cs, hcs, b, hb, rfl⟩ := h
  rw [mapM_eq_some] at hcs
  refine ⟨hcs.length_eq.symm, fun w => ?_, Word.eq_of_neg? hb⟩
  rw [coeff, coeff]
  generalize r.coeffs = ds at hcs
  induction hcs generalizing w with
  | nil => simp
  | cons hd _ ih =>
    cases w with
    | zero => simpa using Word.eq_of_neg? hd
    | succ w => simpa using ih w

theorem holds_of_neg {r s : Row} {x : Nat → Int} (h : r.neg? = some s) (hx : r.Solves x) :
    s.Holds x := by
  obtain ⟨hlen, hcoeff, hrhs⟩ := neg?_spec h
  rw [Solves, value_eq_sum] at hx
  rw [Holds, value_eq_sum, hlen, hrhs, ← hx]
  simp only [hcoeff, neg_mul, Finset.sum_neg_distrib, le_refl]

theorem getD_step {k : Int} {cs es ds : List Int} (hlen : cs.length = es.length)
    (h : (cs.zip es).mapM (fun (c, e) => do Word.sub? c (← Word.mul? k e)) = some ds) :
    ds.length = cs.length ∧ ∀ w, ds.getD w 0 = cs.getD w 0 - k * es.getD w 0 := by
  induction cs generalizing es ds with
  | nil =>
    obtain rfl : es = [] := List.length_eq_zero_iff.mp hlen.symm
    obtain rfl : [] = ds := by simpa using h
    simp
  | cons c cs ih =>
    cases es with
    | nil => simp at hlen
    | cons e es =>
      simp only [List.zip_cons_cons, List.mapM_cons, Option.bind_eq_bind,
        Option.bind_eq_some_iff, Option.pure_def, Option.some.injEq] at h
      obtain ⟨d, ⟨m, hm, hd⟩, ds, hds, rfl⟩ := h
      obtain ⟨hl, ht⟩ := ih (by simpa using hlen) (by simpa using hds)
      refine ⟨by simpa using hl, fun w => ?_⟩
      cases w with
      | zero => simp [Word.eq_of_sub? hd, Word.eq_of_mul? hm]
      | succ w => simpa using ht w

theorem substitute?_spec {equation r s : Row} {v : Nat} (h : substitute? equation v r = some s)
    (hlen : r.coeffs.length = equation.coeffs.length) :
    s.coeffs.length = r.coeffs.length ∧
      (∀ w, s.coeff w = r.coeff w - r.coeff v * equation.coeff v * equation.coeff w) ∧
        s.rhs = r.rhs - r.coeff v * equation.coeff v * equation.rhs := by
  simp only [substitute?, Option.bind_eq_bind, Option.bind_eq_some_iff] at h
  obtain ⟨k, hk, h⟩ := h
  obtain rfl := Word.eq_of_mul? hk
  split at h
  · next hzero =>
    obtain rfl : r = s := by simpa using h
    simp [hzero]
  · simp only [Option.bind_eq_some_iff, Option.pure_def, Option.some.injEq] at h
    obtain ⟨cs, hcs, b, ⟨m, hm, hb⟩, rfl⟩ := h
    obtain ⟨hl, hcoeff⟩ := getD_step hlen hcs
    exact ⟨hl, hcoeff, by rw [Word.eq_of_sub? hb, Word.eq_of_mul? hm]⟩

theorem length_substitute {n : Nat} {equation r s : Row} {v : Nat}
    (h : substitute? equation v r = some s) (he : equation.coeffs.length = n)
    (hr : r.coeffs.length = n) : s.coeffs.length = n :=
  (substitute?_spec h (hr.trans he.symm)).1.trans hr

theorem holds_of_substitute {equation r s : Row} {v : Nat} {x : Nat → Int}
    (h : substitute? equation v r = some s)
    (hlen : r.coeffs.length = equation.coeffs.length) (he : equation.Solves x) :
    (r.Holds x → s.Holds x) ∧ (r.Solves x → s.Solves x) := by
  obtain ⟨hl, hcoeff, hrhs⟩ := substitute?_spec h hlen
  have hvalue : s.value x = r.value x - r.coeff v * equation.coeff v * equation.value x := by
    simp only [value_eq_sum, hl, ← hlen, hcoeff, sub_mul, Finset.sum_sub_distrib, Finset.mul_sum,
      mul_assoc]
  unfold Holds Solves at *
  rw [hvalue, hrhs, he]
  exact ⟨fun h => by omega, fun h => by omega⟩

theorem mem_dropRepeats {r : Row} {rs : List Row} : r ∈ dropRepeats rs ↔ r ∈ rs := by
  fun_induction dropRepeats rs with
  | case1 a rs ih => simp [ih]
  | case2 a b rs hne ih => rw [List.mem_cons, ih, ← List.mem_cons]
  | case3 rs => rfl

@[simp] theorem mem_normalize {r : Row} {rs : List Row} : r ∈ normalize rs ↔ r ∈ rs :=
  mem_dropRepeats.trans List.mem_mergeSort

end Row

namespace RatRow

theorem length_reduce (r : Row) : (reduce r).coeffs.length = r.coeffs.length := by
  rw [reduce, divideBy]
  split
  · exact List.length_map ..
  · rfl

theorem length_tighten {r : RatRow} {s : Row} (h : r.tighten = .ok s) :
    s.coeffs.length = r.coeffs.length := by
  obtain ⟨t, rfl, hlen, -⟩ := exists_of_tighten h
  exact (length_reduce t).trans hlen

end RatRow

namespace ConstraintSystem

variable {n : Nat} {x : Nat → Int}

def Holding (n : Nat) (x : Nat → Int) (rows : List Row) : Prop :=
  ∀ r ∈ rows, r.coeffs.length = n ∧ r.Holds x

def Solving (n : Nat) (x : Nat → Int) (equations : List Row) : Prop :=
  ∀ r ∈ equations, r.coeffs.length = n ∧ r.Solves x

theorem mem_of_mem_swapRemove {α : Type} {k : Nat} {xs : List α} {a : α}
    (h : a ∈ swapRemove k xs) : a ∈ xs := by
  rw [swapRemove] at h
  split at h
  · simp at h
  · next last hl =>
    obtain h | rfl := List.mem_or_eq_of_mem_set (List.mem_of_mem_dropLast h)
    · exact h
    · exact List.mem_of_getLast? hl

theorem coeff_of_unitUnknown {r : Row} {v : Nat} (h : r.unitUnknown = .ok (some v)) :
    r.coeff v * r.coeff v = 1 := by
  obtain ⟨⟨c, w⟩, hm, hc⟩ := findSomeM?_eq_ok_some h
  obtain ⟨a, ha, hc⟩ := bind_eq_ok.mp hc
  obtain ⟨-, rfl⟩ := Word.abs_eq_ok.mp ha
  have hunit : c.natAbs = 1 ∧ w = v := by simpa [pure, Except.pure] using hc
  obtain ⟨hunit, rfl⟩ := hunit
  have hget : r.coeffs[w]? = some c := List.mem_zipIdx_iff_getElem?.mp hm
  rw [Row.coeff, List.getD_eq_getElem?_getD, hget, Option.getD_some, ← Int.natAbs_mul_self, hunit]
  rfl

theorem solvable_spec {equations : List Row} {k v : Nat} {e : Row}
    (h : solvable equations = .ok (some (k, e, v))) :
    equations[k]? = some e ∧ e.coeff v * e.coeff v = 1 := by
  obtain ⟨⟨r, j⟩, hm, hr⟩ := findSomeM?_eq_ok_some h
  obtain ⟨o, ho, hr⟩ := bind_eq_ok.mp hr
  obtain ⟨u, rfl, hu⟩ := Option.map_eq_some_iff.mp (pure_eq_ok.mp hr)
  cases hu
  exact ⟨List.mem_zipIdx_iff_getElem?.mp hm, coeff_of_unitUnknown ho⟩

/-- Solving one equation keeps every solution of the others and of the rows. -/
theorem keeps_substitute {e r s : Row} {v : Nat} (he : e.coeffs.length = n ∧ e.Solves x)
    (h : Row.substitute? e v r = some s) :
    (r.coeffs.length = n ∧ r.Holds x → s.coeffs.length = n ∧ s.Holds x) ∧
      (r.coeffs.length = n ∧ r.Solves x → s.coeffs.length = n ∧ s.Solves x) := by
  constructor
  all_goals
    rintro ⟨hl, hx⟩
    have hle : r.coeffs.length = e.coeffs.length := hl.trans he.1.symm
    refine ⟨Row.length_substitute h he.1 hl, ?_⟩
  · exact (Row.holds_of_substitute h hle he.2).1 hx
  · exact (Row.holds_of_substitute h hle he.2).2 hx

/-- A turn of the loop that solves equations either finds none to solve, or puts one into all
others and into the rows. -/
theorem solveUnits_succ {k : Nat} {es rs es' rs' : List Row} :
    solveUnits (k + 1) es rs = .ok (es', rs') ↔
      (solvable es = .ok none ∧ es = es' ∧ rs = rs') ∨
        ∃ j e v es₁ rs₁, solvable es = .ok (some (j, e, v)) ∧
          List.Forall₂ (fun r s => Row.substitute? e v r = some s) (swapRemove j es) es₁ ∧
          List.Forall₂ (fun r s => Row.substitute? e v r = some s) rs rs₁ ∧
          solveUnits k es₁ rs₁ = .ok (es', rs') := by
  simp only [solveUnits, bind_eq_ok, Stop.unchecked_eq_ok, ← mapM_eq_some]
  constructor
  · rintro ⟨_ | ⟨j, e, v⟩, hs, h⟩
    · exact Or.inl ⟨hs, by simpa [pure, Except.pure] using h⟩
    · obtain ⟨es₁, hes, h⟩ := bind_eq_ok.mp h
      obtain ⟨rs₁, hrs, h⟩ := bind_eq_ok.mp h
      exact Or.inr ⟨j, e, v, es₁, rs₁, hs, Stop.checked_eq_ok.mp hes, Stop.checked_eq_ok.mp hrs, h⟩
  · rintro (⟨hs, rfl, rfl⟩ | ⟨j, e, v, es₁, rs₁, hs, hes, hrs, h⟩)
    · exact ⟨none, hs, rfl⟩
    · exact ⟨some (j, e, v), hs, bind_eq_ok.mpr ⟨es₁, Stop.checked_eq_ok.mpr hes,
        bind_eq_ok.mpr ⟨rs₁, Stop.checked_eq_ok.mpr hrs, h⟩⟩⟩

theorem solveUnits_preserves {P Q : Row → Prop}
    (hP : ∀ e v r s, P e → Row.substitute? e v r = some s → P r → P s)
    (hQ : ∀ e v r s, P e → Row.substitute? e v r = some s → Q r → Q s) {k : Nat}
    {es rs es' rs' : List Row} (h : solveUnits k es rs = .ok (es', rs')) (he : ∀ e ∈ es, P e)
    (hr : ∀ r ∈ rs, Q r) : (∀ e ∈ es', P e) ∧ ∀ r ∈ rs', Q r := by
  induction k generalizing es rs with
  | zero =>
    cases h
    exact ⟨he, hr⟩
  | succ k ih =>
    obtain ⟨-, rfl, rfl⟩ | ⟨j, e, v, es₁, rs₁, hs, hes, hrs, h⟩ := solveUnits_succ.mp h
    · exact ⟨he, hr⟩
    · have hPe : P e := he e (List.mem_of_getElem? (solvable_spec hs).1)
      refine ih h (fun s hs => ?_) (fun s hs => ?_)
      · obtain ⟨r, hr', hsub⟩ := exists_of_mem_right hes hs
        exact hP e v r s hPe hsub (he r (mem_of_mem_swapRemove hr'))
      · obtain ⟨r, hr', hsub⟩ := exists_of_mem_right hrs hs
        exact hQ e v r s hPe hsub (hr r hr')

theorem solveUnits_keeps {k : Nat} {es rs es' rs' : List Row}
    (h : solveUnits k es rs = .ok (es', rs')) (he : Solving n x es) (hr : Holding n x rs) :
    Solving n x es' ∧ Holding n x rs' :=
  solveUnits_preserves (fun _ _ _ _ he h => (keeps_substitute he h).2)
    (fun _ _ _ _ he h => (keeps_substitute he h).1) h he hr

theorem length_solveUnits {k : Nat} {es rs es' rs' : List Row}
    (h : solveUnits k es rs = .ok (es', rs')) (he : ∀ e ∈ es, e.coeffs.length = n)
    (hr : ∀ r ∈ rs, r.coeffs.length = n) :
    (∀ e ∈ es', e.coeffs.length = n) ∧ ∀ r ∈ rs', r.coeffs.length = n :=
  solveUnits_preserves (fun _ _ _ _ he h => Row.length_substitute h he)
    (fun _ _ _ _ he h => Row.length_substitute h he) h he hr

theorem mem_asInequalities {es rs : List Row} (h : asInequalities? es = some rs) :
    (∀ r ∈ rs, ∃ e ∈ es, r = e ∨ e.neg? = some r) ∧
      ∀ e ∈ es, e ∈ rs ∧ ∃ r ∈ rs, e.neg? = some r := by
  simp only [asInequalities?, Option.bind_eq_bind, Option.bind_eq_some_iff, Option.pure_def,
    Option.some.injEq] at h
  obtain ⟨pairs, hp, rfl⟩ := h
  rw [mapM_eq_some] at hp
  refine ⟨fun r hr => ?_, fun e he => ?_⟩
  · obtain ⟨pair, hpair, hr⟩ := List.mem_flatten.mp hr
    obtain ⟨e, he, hpe⟩ := exists_of_mem_right hp hpair
    simp only [Option.bind_eq_some_iff, Option.some.injEq] at hpe
    obtain ⟨m, hm, rfl⟩ := hpe
    obtain rfl | rfl : r = e ∨ r = m := by simpa using hr
    · exact ⟨r, he, Or.inl rfl⟩
    · exact ⟨e, he, Or.inr hm⟩
  · obtain ⟨pair, hpair, hpe⟩ := exists_of_mem_left hp he
    simp only [Option.bind_eq_some_iff, Option.some.injEq] at hpe
    obtain ⟨m, hm, rfl⟩ := hpe
    exact ⟨List.mem_flatten.mpr ⟨_, hpair, by simp⟩, m,
      List.mem_flatten.mpr ⟨_, hpair, by simp⟩, hm⟩

theorem length_asInequalities {es rs : List Row} (h : asInequalities? es = some rs)
    (he : ∀ e ∈ es, e.coeffs.length = n) : ∀ r ∈ rs, r.coeffs.length = n := by
  intro r hr
  obtain ⟨e, hem, rfl | hneg⟩ := (mem_asInequalities h).1 r hr
  · exact he r hem
  · exact (Row.neg?_spec hneg).1.trans (he e hem)

theorem asInequalities_keeps {es rs : List Row} (h : asInequalities? es = some rs)
    (he : Solving n x es) : Holding n x rs := by
  intro r hr
  refine ⟨length_asInequalities h (fun e hem => (he e hem).1) r hr, ?_⟩
  obtain ⟨e, hem, rfl | hneg⟩ := (mem_asInequalities h).1 r hr
  · exact (he r hem).2.le
  · exact Row.holds_of_neg hneg (he e hem).2

theorem length_tightened {rs ss : List Row}
    (h : rs.mapM (fun r => (RatRow.ofRow r).tighten) = .ok ss)
    (hr : ∀ r ∈ rs, r.coeffs.length = n) : ∀ s ∈ ss, s.coeffs.length = n := by
  intro s hs
  obtain ⟨r, hrm, ht⟩ := exists_of_mem_right (mapM_eq_ok.mp h) hs
  exact (RatRow.length_tighten ht).trans (by simpa [RatRow.ofRow] using hr r hrm)

theorem tighten_keeps {rs ss : List Row}
    (h : rs.mapM (fun r => (RatRow.ofRow r).tighten) = .ok ss)
    (hr : Holding n x rs) : Holding n x ss := by
  intro s hs
  refine ⟨length_tightened h (fun r hrm => (hr r hrm).1) s hs, ?_⟩
  obtain ⟨r, hrm, ht⟩ := exists_of_mem_right (mapM_eq_ok.mp h) hs
  exact (RatRow.holds_tighten ht x).mpr ((RatRow.holds_ofRow r x).mpr (hr r hrm).2)

theorem mem_combineAll {v : Nat} {lower upper rs ss : List Row}
    (h : combineAll v lower upper rs = .ok ss) :
    (∀ s ∈ ss, s ∈ rs ∨ ∃ p ∈ upper, ∃ m ∈ lower,
      ∃ c, RatRow.combine v p m = .ok c ∧ c.tighten = .ok s) ∧
    (∀ r ∈ rs, r ∈ ss) ∧
      ∀ p ∈ upper, ∀ m ∈ lower,
        ∃ s ∈ ss, ∃ c, RatRow.combine v p m = .ok c ∧ c.tighten = .ok s := by
  induction upper generalizing rs with
  | nil =>
    cases h
    simp
  | cons p upper ih =>
    obtain ⟨ts, hts, h⟩ := bind_eq_ok.mp h
    rw [mapM_eq_ok] at hts
    dsimp only at h
    split at h
    · cases h
    · obtain ⟨hback, hkept, hnew⟩ := ih h
      refine ⟨fun s hs => ?_, fun r hr => hkept r (List.mem_append_left _ hr), ?_⟩
      · obtain hs | ⟨q, hq, hs⟩ := hback s hs
        · obtain hs | hs := List.mem_append.mp hs
          · exact Or.inl hs
          · obtain ⟨m, hm, hc⟩ := exists_of_mem_right hts hs
            exact Or.inr ⟨p, List.mem_cons_self, m, hm, bind_eq_ok.mp hc⟩
        · exact Or.inr ⟨q, List.mem_cons_of_mem _ hq, hs⟩
      · rw [List.forall_mem_cons]
        refine ⟨fun m hm => ?_, hnew⟩
        obtain ⟨s, hs, hc⟩ := exists_of_mem_left hts hm
        exact ⟨s, hkept s (List.mem_append_right _ hs), bind_eq_ok.mp hc⟩

theorem mem_eliminate {v : Nat} {rs ss : List Row} (h : eliminate v rs = .ok ss) :
    (∀ s ∈ ss, s ∈ rs ∧ s.coeff v = 0 ∨ ∃ p ∈ rs, ∃ m ∈ rs, 0 < p.coeff v ∧ m.coeff v < 0 ∧
      ∃ c, RatRow.combine v p m = .ok c ∧ c.tighten = .ok s) ∧
    (∀ r ∈ rs, r.coeff v = 0 → r ∈ ss) ∧
      ∀ p ∈ rs, ∀ m ∈ rs, 0 < p.coeff v → m.coeff v < 0 →
        ∃ s ∈ ss, ∃ c, RatRow.combine v p m = .ok c ∧ c.tighten = .ok s := by
  obtain ⟨hback, hkept, hnew⟩ := mem_combineAll h
  simp only [List.mem_filter, decide_eq_true_eq] at hback hkept hnew
  refine ⟨fun s hs => ?_, fun r hr hzero => hkept r ⟨hr, hzero⟩, fun p hp m hm hpos hneg => ?_⟩
  · obtain hs | ⟨p, ⟨hp, hpos⟩, m, ⟨hm, hneg⟩, hs⟩ := hback s hs
    · exact Or.inl hs
    · exact Or.inr ⟨p, hp, m, hm, hpos, hneg, hs⟩
  · exact hnew p ⟨hp, hpos⟩ m ⟨hm, hneg⟩

theorem length_eliminate {v : Nat} {rs ss : List Row} (h : eliminate v rs = .ok ss)
    (hlen : ∀ r ∈ rs, r.coeffs.length = n) : ∀ s ∈ ss, s.coeffs.length = n := by
  intro s hs
  obtain ⟨hs, -⟩ | ⟨p, hp, m, hm, hpos, hneg, c, hc, ht⟩ := (mem_eliminate h).1 s hs
  · exact hlen s hs
  · have hpm : p.coeffs.length = m.coeffs.length := (hlen p hp).trans (hlen m hm).symm
    exact (RatRow.length_tighten ht).trans
      ((RatRow.combine_spec hc hpm hpos hneg).1.trans (hlen p hp))

theorem eliminate_keeps {v : Nat} {rs ss : List Row} (h : eliminate v rs = .ok ss)
    (hr : Holding n x rs) : Holding n x ss := by
  intro s hs
  refine ⟨length_eliminate h (fun r hm => (hr r hm).1) s hs, ?_⟩
  obtain ⟨hs, -⟩ | ⟨p, hp, m, hm, hpos, hneg, c, hc, ht⟩ := (mem_eliminate h).1 s hs
  · exact (hr s hs).2
  · have hlen : p.coeffs.length = m.coeffs.length := (hr p hp).1.trans (hr m hm).1.symm
    exact (RatRow.holds_tighten ht x).mpr (RatRow.holds_combine hc hlen hpos hneg
      ((RatRow.holds_ofRow p x).mpr (hr p hp).2) ((RatRow.holds_ofRow m x).mpr (hr m hm).2))

/-- A turn of the elimination loop answers, or takes one unknown out of the rows that are not
trivial. -/
theorem eliminateAll_succ {vars k : Nat} {rs : List Row} {answer : Feasibility}
    (h : eliminateAll vars (k + 1) rs = .ok answer) :
    let rest := Row.normalize (rs.filter (!·.isTrivial))
    ((rs.any fun r => r.isTrivial && r.rhs < 0) = true ∧ answer = .infeasible) ∨
      (¬ (rs.any fun r => r.isTrivial && r.rhs < 0) = true ∧
        (cheapest? vars rest = none ∧ answer = .feasible ∨
          ∃ v ss, cheapest? vars rest = some v ∧ eliminate v rest = .ok ss ∧
            eliminateAll vars k ss = .ok answer)) := by
  rw [eliminateAll] at h
  split at h
  · next hany =>
    cases h
    exact Or.inl ⟨hany, rfl⟩
  · next hany =>
    refine Or.inr ⟨hany, ?_⟩
    dsimp only at h
    split at h
    · next hnone =>
      cases h
      exact Or.inl ⟨hnone, rfl⟩
    · next v hv =>
      obtain ⟨ss, hss, h⟩ := bind_eq_ok.mp h
      exact Or.inr ⟨v, ss, hv, hss, h⟩

theorem eliminateAll_ne_infeasible {vars k : Nat} {rs : List Row} (hr : Holding n x rs) :
    eliminateAll vars k rs ≠ .ok .infeasible := by
  induction k generalizing rs with
  | zero => simp [eliminateAll]
  | succ k ih =>
    intro h
    obtain ⟨hany, -⟩ | ⟨-, ⟨-, h⟩ | ⟨v, ss, -, hss, h⟩⟩ := eliminateAll_succ h
    · obtain ⟨r, hm, hc⟩ := List.any_eq_true.mp hany
      simp only [Bool.and_eq_true, decide_eq_true_eq] at hc
      have hx : r.value x ≤ r.rhs := (hr r hm).2
      rw [Row.value_of_isTrivial hc.1] at hx
      omega
    · cases h
    · have hnorm : Holding n x (Row.normalize (rs.filter (!·.isTrivial))) := fun r hm =>
        hr r (List.mem_filter.mp (Row.mem_normalize.mp hm)).1
      exact ih (eliminate_keeps hss hnorm) h

theorem settle_eq_ok {s : ConstraintSystem} {answer : Feasibility} (h : s.settle = .ok answer) :
    ∃ es rs, solveUnits s.equations.length s.equations s.rows = .ok (es, rs) ∧
      ((∃ e ∈ es, e.gcdTest = .ok false) ∧ answer = .infeasible ∨
        (∀ e ∈ es, e.gcdTest = .ok true) ∧ ∃ ps ts, asInequalities? es = some ps ∧
          (ps ++ rs).mapM (fun r => (RatRow.ofRow r).tighten) = .ok ts ∧
          eliminateAll s.vars (s.vars + 1) ts = .ok answer) := by
  obtain ⟨⟨es, rs⟩, hs, h⟩ := bind_eq_ok.mp h
  obtain ⟨b, hb, h⟩ := bind_eq_ok.mp h
  rw [Stop.unchecked_eq_ok] at hb
  refine ⟨es, rs, hs, ?_⟩
  cases b with
  | false =>
    cases h
    exact Or.inl ⟨exists_of_allM_eq_ok_false hb, rfl⟩
  | true =>
    obtain ⟨ps, hp, h⟩ := bind_eq_ok.mp h
    obtain ⟨ts, ht, h⟩ := bind_eq_ok.mp h
    exact Or.inr ⟨allM_eq_ok_true.mp hb, ps, ts, Stop.checked_eq_ok.mp hp, ht, h⟩

theorem feasibility_eq_ok {s : ConstraintSystem} {answer : Feasibility} :
    s.feasibility = .ok answer ↔
      s.settle = .ok answer ∨ s.settle = .error .gaveUp ∧ answer = .unknown := by
  unfold feasibility Stop.answer
  split <;> simp [*, eq_comm]

/-- Neither substitution nor elimination loses an integer point. -/
theorem feasibility_ne_infeasible {s : ConstraintSystem} (hx : s.Satisfies x) :
    s.feasibility ≠ .ok .infeasible := by
  intro h
  obtain h | ⟨-, h⟩ := feasibility_eq_ok.mp h
  · have he : Solving s.vars x s.equations := fun r hr => ⟨s.equations_length r hr, hx.2 r hr⟩
    have hr : Holding s.vars x s.rows := fun r hr => ⟨s.rows_length r hr, hx.1 r hr⟩
    obtain ⟨es, rs, hs, h⟩ := settle_eq_ok h
    obtain ⟨he', hr'⟩ := solveUnits_keeps hs he hr
    obtain ⟨⟨e, hm, hgcd⟩, -⟩ | ⟨-, ps, ts, hp, ht, h⟩ := h
    · cases Row.gcdTest_of_solves (he' e hm).2 hgcd
    · have hall : Holding s.vars x (ps ++ rs) := by
        intro r hm
        obtain hm | hm := List.mem_append.mp hm
        · exact asInequalities_keeps hp he' r hm
        · exact hr' r hm
      exact eliminateAll_ne_infeasible (tighten_keeps ht hall) h
  · cases h

/-- A system that elimination calls infeasible has no integer point. -/
theorem not_satisfies_of_infeasible (s : ConstraintSystem) (h : s.feasibility = .ok .infeasible)
    (x : Nat → Int) : ¬ s.Satisfies x := fun hx => feasibility_ne_infeasible hx h

/-- An even number that is three: the unit equation is solved, and rounding the bounds of the
other unknown leaves nothing between them. -/
theorem not_satisfies_even_three :
    ((((empty 2).addEq [1, -2] 0).addLe [1, 0] 3).addLe [-1, 0] (-3)).feasibility =
        .ok .infeasible ∧
      ∀ x, ¬ ((((empty 2).addEq [1, -2] 0).addLe [1, 0] 3).addLe [-1, 0] (-3)).Satisfies x :=
  have h : ((((empty 2).addEq [1, -2] 0).addLe [1, 0] 3).addLe [-1, 0] (-3)).feasibility =
      .ok .infeasible := by cbv
  ⟨h, not_satisfies_of_infeasible _ h⟩

end ConstraintSystem

end LoopLegality

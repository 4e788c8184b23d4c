import LoopLegality.Proofs.Row

namespace LoopLegality

namespace RatRow

def dotFrom (x : Nat → Rat) : Nat → List Rat → Rat
  | _, [] => 0
  | v, c :: cs => c * x v + dotFrom x (v + 1) cs

def value (r : RatRow) (x : Nat → Rat) : Rat := dotFrom x 0 r.coeffs

def Holds (r : RatRow) (x : Nat → Rat) : Prop := r.value x ≤ r.rhs

theorem dotFrom_eq_sum (x : Nat → Rat) (k : Nat) (cs : List Rat) :
    dotFrom x k cs = ∑ v ∈ Finset.range cs.length, cs.getD v 0 * x (k + v) := by
  induction cs generalizing k with
  | nil => simp [dotFrom]
  | cons c cs ih =>
    rw [dotFrom, ih, List.length_cons, Finset.sum_range_succ', add_comm]
    simp only [List.getD_cons_succ, List.getD_cons_zero, Nat.add_zero, Nat.add_assoc,
      Nat.add_comm 1]

theorem dotFrom_map_cast (x : Nat → Int) (v : Nat) (cs : List Int) :
    dotFrom (fun v => x v) v (cs.map fun c : Int => (c : Rat)) = Row.dotFrom x v cs := by
  induction cs generalizing v with
  | nil => simp [dotFrom, Row.dotFrom]
  | cons c cs ih =>
    simp only [List.map_cons, dotFrom, Row.dotFrom, ih]
    push_cast
    ring

theorem holds_ofRow (r : Row) (x : Nat → Int) :
    (ofRow r).Holds (fun v => x v) ↔ r.Holds x := by
  rw [Holds, Row.Holds, value, Row.value, ofRow, dotFrom_map_cast]
  exact Int.cast_le

theorem add?_eq {a b c : Rat} (h : add? a b = some c) : c = a + b := by
  simp only [add?, Option.bind_eq_bind, Option.bind_eq_some_iff, Option.pure_def,
    Option.some.injEq] at h
  obtain ⟨_, _, _, _, _, _, _, _, rfl⟩ := h
  rfl

theorem lcm_fold_dvd (qs : List Rat) (l : Nat) :
    l ∣ qs.foldl (fun l q => Nat.lcm l q.den) l ∧
      ∀ q ∈ qs, q.den ∣ qs.foldl (fun l q => Nat.lcm l q.den) l := by
  induction qs generalizing l with
  | nil => simp
  | cons q qs ih =>
    obtain ⟨hl, hqs⟩ := ih (Nat.lcm l q.den)
    refine ⟨(Nat.dvd_lcm_left _ _).trans hl, fun p hp => ?_⟩
    obtain rfl | hp := List.mem_cons.mp hp
    · exact (Nat.dvd_lcm_right _ _).trans hl
    · exact hqs p hp

theorem lcm_fold_pos (qs : List Rat) {l : Nat} (h : 0 < l) :
    0 < qs.foldl (fun l q => Nat.lcm l q.den) l := by
  induction qs generalizing l with
  | nil => exact h
  | cons q qs ih => exact ih (Nat.lcm_pos h q.den_pos)

theorem denominator_pos (r : RatRow) : 0 < r.denominator := lcm_fold_pos _ Nat.one_pos

theorem den_dvd_denominator {r : RatRow} {q : Rat} (h : q ∈ r.coeffs ++ [r.rhs]) :
    q.den ∣ r.denominator :=
  (lcm_fold_dvd _ 1).2 q h

theorem scaled?_eq {l : Nat} {q : Rat} {n : Int} (h : scaled? l q = some n) (hd : q.den ∣ l) :
    (n : Rat) = l * q := by
  obtain ⟨_, rfl⟩ := Word.fit?_eq_some.mp h
  obtain ⟨k, rfl⟩ := hd
  have hq : (q.den : Rat) ≠ 0 := by exact_mod_cast q.den_ne_zero
  have hk : q.den * k / q.den = k := Nat.mul_div_cancel_left k q.den_pos
  rw [hk]
  push_cast
  calc (q.num : Rat) * k = (q.den * q) * k := by rw [mul_comm (q.den : Rat), Rat.mul_den_eq_num]
    _ = q.den * k * q := by ring

theorem dotFrom_scaled {l : Nat} {qs : List Rat} {ns : List Int}
    (h : qs.mapM (scaled? l) = some ns) (hd : ∀ q ∈ qs, q.den ∣ l) (x : Nat → Rat) (v : Nat) :
    dotFrom x v (ns.map fun c : Int => (c : Rat)) = l * dotFrom x v qs := by
  rw [mapM_eq_some] at h
  induction h generalizing v with
  | nil => simp [dotFrom]
  | cons hq hs ih =>
    have hn := scaled?_eq hq (hd _ List.mem_cons_self)
    have ht := ih (fun q hm => hd q (List.mem_cons_of_mem _ hm)) (v + 1)
    simp only [List.map_cons, dotFrom, hn, ht]
    ring

theorem dotFrom_map_div {g : Int} {cs : List Int} (h : ∀ c ∈ cs, g ∣ c) (x : Nat → Int)
    (v : Nat) : g * Row.dotFrom x v (cs.map (· / g)) = Row.dotFrom x v cs := by
  induction cs generalizing v with
  | nil => simp [Row.dotFrom]
  | cons c cs ih =>
    have hc : g * (c / g) = c := Int.mul_ediv_cancel' (h c List.mem_cons_self)
    have ht := ih (fun c hm => h c (List.mem_cons_of_mem _ hm)) (v + 1)
    simp only [List.map_cons, Row.dotFrom]
    calc g * (c / g * x v + Row.dotFrom x (v + 1) (cs.map (· / g)))
        = g * (c / g) * x v + g * Row.dotFrom x (v + 1) (cs.map (· / g)) := by ring
      _ = c * x v + Row.dotFrom x (v + 1) cs := by rw [hc, ht]

/-- The row without the common factor of its coefficients. -/
def reduce (r : Row) : Row := divideBy r.content r

/-- Division by the common factor and rounding down keep exactly the integer points. -/
theorem holds_reduce (r : Row) (x : Nat → Int) : (reduce r).Holds x ↔ r.Holds x := by
  unfold reduce divideBy
  split
  · next hg =>
    have hpos : (0 : Int) < r.content := by omega
    have hv := dotFrom_map_div (fun c (hc : c ∈ r.coeffs) => Row.content_dvd hc) x 0
    unfold Row.Holds Row.value
    rw [Int.le_ediv_iff_mul_le hpos, mul_comm, hv]
  · rfl

theorem scaleAll_eq_ok {l g m : Nat} {qs : List Rat} {cs : List Int} :
    scaleAll l g qs = .ok (cs, m) ↔
      qs.mapM (scaled? l) = some cs ∧ cs.foldlM Word.gcd g = .ok m := by
  induction qs generalizing g cs with
  | nil =>
    simp only [scaleAll, Except.ok.injEq, Prod.mk.injEq, List.mapM_nil, Option.pure_def,
      Option.some.injEq]
    constructor
    · rintro ⟨rfl, rfl⟩
      exact ⟨rfl, rfl⟩
    · rintro ⟨rfl, h⟩
      exact ⟨rfl, pure_eq_ok.mp h⟩
  | cons q qs ih =>
    simp only [scaleAll, bind_eq_ok, Stop.checked_eq_ok, Stop.unchecked_eq_ok, Prod.exists,
      mapM_eq_some, List.forall₂_cons_left_iff] at ih ⊢
    constructor
    · rintro ⟨c, hc, d, hd, cs', m', hcs, h⟩
      cases h
      obtain ⟨hmap, hfold⟩ := ih.mp hcs
      refine ⟨⟨c, cs', hc, hmap, rfl⟩, ?_⟩
      rw [List.foldlM_cons]
      exact bind_eq_ok.mpr ⟨d, hd, hfold⟩
    · rintro ⟨⟨c, cs', hc, hmap, rfl⟩, hfold⟩
      rw [List.foldlM_cons] at hfold
      obtain ⟨d, hd, hfold⟩ := bind_eq_ok.mp hfold
      exact ⟨c, hc, d, hd, cs', m, ih.mpr ⟨hmap, hfold⟩, rfl⟩

theorem tighten_eq_ok {r : RatRow} {s : Row} (h : r.tighten = .ok s) :
    ∃ t : Row, s = reduce t ∧ r.coeffs.mapM (scaled? r.denominator) = some t.coeffs ∧
      scaled? r.denominator r.rhs = some t.rhs ∧ t.coeffs.foldlM Word.gcd 0 = .ok t.content := by
  unfold tighten at h
  dsimp only at h
  split at h
  · cases h
  · obtain ⟨-, -, h⟩ := bind_eq_ok.mp h
    obtain ⟨⟨cs, g⟩, hcs, h⟩ := bind_eq_ok.mp h
    obtain ⟨b, hb, h⟩ := bind_eq_ok.mp h
    obtain ⟨hmap, hfold⟩ := scaleAll_eq_ok.mp hcs
    have hg : Row.content ⟨cs, b⟩ = g := Row.foldlM_gcd hfold
    cases h
    exact ⟨⟨cs, b⟩, by rw [reduce, hg], hmap, Stop.checked_eq_ok.mp hb, hg ▸ hfold⟩

/-- Tightening multiplies the row by a positive number that makes it one over the integers, then
reduces it. -/
theorem exists_of_tighten {r : RatRow} {s : Row} (h : r.tighten = .ok s) :
    ∃ t : Row, s = reduce t ∧ t.coeffs.length = r.coeffs.length ∧ ∃ l : Rat, 0 < l ∧
      (∀ x, (ofRow t).value x = l * r.value x) ∧ (t.rhs : Rat) = l * r.rhs := by
  obtain ⟨t, rfl, hcs, hb, -⟩ := tighten_eq_ok h
  refine ⟨t, rfl, (mapM_eq_some.mp hcs).length_eq.symm, r.denominator, ?_, fun x => ?_, ?_⟩
  · exact_mod_cast r.denominator_pos
  · exact dotFrom_scaled hcs (fun q hq => den_dvd_denominator (by simp [hq])) x 0
  · exact scaled?_eq hb (den_dvd_denominator (by simp))

/-- A row and its tightened form have the same integer points. -/
theorem holds_tighten {r : RatRow} {s : Row} (h : r.tighten = .ok s) (x : Nat → Int) :
    s.Holds x ↔ r.Holds (fun v => x v) := by
  obtain ⟨t, rfl, -, l, hl, hvalue, hrhs⟩ := exists_of_tighten h
  rw [holds_reduce, ← holds_ofRow, Holds, Holds, hvalue]
  change _ ≤ (t.rhs : Rat) ↔ _
  rw [hrhs]
  exact mul_le_mul_iff_right₀ hl

theorem dotFrom_set_zero (x : Nat → Rat) (cs : List Rat) (k v : Nat) :
    dotFrom x k (cs.set v 0) = dotFrom x k cs - cs.getD v 0 * x (k + v) := by
  induction cs generalizing k v with
  | nil => simp [dotFrom]
  | cons c cs ih =>
    cases v with
    | zero => simp [dotFrom]
    | succ v =>
      have hk : k + 1 + v = k + (v + 1) := by omega
      simp only [List.set_cons_succ, dotFrom, ih, List.getD_cons_succ, hk]
      ring

theorem getD_sum {wp wn : Nat} {ps ns : List Int} {cs : List Rat}
    (hlen : ps.length = ns.length)
    (h : (ps.zip ns).mapM (fun (a, b) => add? (mkRat a wp) (mkRat b wn)) = some cs) :
    cs.length = ps.length ∧
      ∀ v, cs.getD v 0 = ps.getD v 0 / (wp : Rat) + ns.getD v 0 / (wn : Rat) := by
  induction ps generalizing ns cs with
  | nil =>
    obtain rfl : ns = [] := List.length_eq_zero_iff.mp hlen.symm
    obtain rfl : [] = cs := by simpa using h
    simp
  | cons p ps ih =>
    cases ns with
    | nil => simp at hlen
    | cons n ns =>
      simp only [List.zip_cons_cons, List.mapM_cons, Option.bind_eq_bind,
        Option.bind_eq_some_iff, Option.pure_def, Option.some.injEq] at h
      obtain ⟨c, hc, cs, hcs, rfl⟩ := h
      obtain ⟨hl, ht⟩ := ih (by simpa using hlen) hcs
      refine ⟨congrArg (· + 1) hl, fun v => ?_⟩
      cases v with
      | zero => simp [add?_eq hc, Rat.mkRat_eq_div]
      | succ v => simpa using ht v

theorem dotFrom_of_getD {wp wn : Nat} {ps ns : List Int} {cs : List Rat}
    (hps : cs.length = ps.length) (hns : cs.length = ns.length)
    (h : ∀ v, cs.getD v 0 = ps.getD v 0 / (wp : Rat) + ns.getD v 0 / (wn : Rat))
    (x : Nat → Rat) :
    dotFrom x 0 cs = dotFrom x 0 (ps.map fun c : Int => (c : Rat)) / wp +
      dotFrom x 0 (ns.map fun c : Int => (c : Rat)) / wn := by
  have hcast (as : List Int) (v : Nat) : (as.map fun c : Int => (c : Rat)).getD v 0 =
      (as.getD v 0 : Int) := by
    rw [← Int.cast_zero, List.getD_map]
  simp only [dotFrom_eq_sum, List.length_map, ← hps, ← hns, hcast, h, add_mul,
    Finset.sum_add_distrib, Finset.sum_div, div_mul_eq_mul_div]

/-- A combination is the sum of its rows over the sizes of their coefficients of the unknown that
cancels. -/
theorem combine_spec {v : Nat} {p n : Row} {r : RatRow} (h : combine v p n = .ok r)
    (hlen : p.coeffs.length = n.coeffs.length) (hp : 0 < p.coeff v) (hn : n.coeff v < 0) :
    r.coeffs.length = p.coeffs.length ∧
      (∀ x, r.value x = (ofRow p).value x / p.coeff v - (ofRow n).value x / n.coeff v) ∧
        r.rhs = p.rhs / p.coeff v - n.rhs / n.coeff v := by
  obtain ⟨wp, hp₁, h⟩ := bind_eq_ok.mp h
  obtain ⟨wn, hn₁, h⟩ := bind_eq_ok.mp h
  obtain ⟨cs, hcs, h⟩ := bind_eq_ok.mp h
  obtain ⟨b, hb, h⟩ := bind_eq_ok.mp h
  obtain rfl := pure_eq_ok.mp h
  obtain ⟨-, rfl⟩ := Word.abs_eq_ok.mp (Stop.unchecked_eq_ok.mp hp₁)
  obtain ⟨-, rfl⟩ := Word.abs_eq_ok.mp (Stop.unchecked_eq_ok.mp hn₁)
  rw [Stop.checked_eq_ok] at hcs hb
  obtain ⟨hl, hsum⟩ := getD_sum hlen hcs
  have hwp : ((p.coeff v).natAbs : Rat) = p.coeff v := by rw [Nat.cast_natAbs, abs_of_pos hp]
  have hwn : ((n.coeff v).natAbs : Rat) = -n.coeff v := by
    rw [Nat.cast_natAbs, abs_of_neg hn, Int.cast_neg]
  have hp' : (p.coeff v : Rat) ≠ 0 := by exact_mod_cast hp.ne'
  have hn' : (n.coeff v : Rat) ≠ 0 := by exact_mod_cast hn.ne
  have hcancel : cs.getD v 0 = 0 := by
    rw [hsum, hwp, hwn]
    change (p.coeff v : Rat) / p.coeff v + (n.coeff v : Rat) / -n.coeff v = 0
    rw [div_neg, div_self hp', div_self hn', add_neg_cancel]
  refine ⟨by simpa using hl, fun x => ?_, ?_⟩
  · rw [value, dotFrom_set_zero, hcancel, zero_mul, sub_zero,
      dotFrom_of_getD hl (hl.trans hlen) hsum, hwp, hwn, div_neg, ← sub_eq_add_neg]
    rfl
  · rw [add?_eq hb, Rat.mkRat_eq_div, Rat.mkRat_eq_div]
    push_cast
    rw [hwp, hwn, div_neg, ← sub_eq_add_neg]

/-- A bound from above and a bound from below on one unknown imply their combination. -/
theorem holds_combine {v : Nat} {p n : Row} {r : RatRow} (h : combine v p n = .ok r)
    (hlen : p.coeffs.length = n.coeffs.length) (hp : 0 < p.coeff v) (hn : n.coeff v < 0)
    {x : Nat → Rat} (hpx : (ofRow p).Holds x) (hnx : (ofRow n).Holds x) : r.Holds x := by
  obtain ⟨-, hvalue, hrhs⟩ := combine_spec h hlen hp hn
  have hp' : (0 : Rat) < p.coeff v := by exact_mod_cast hp
  have hn' : (n.coeff v : Rat) < 0 := by exact_mod_cast hn
  rw [Holds, hvalue, hrhs]
  exact sub_le_sub (div_le_div_of_nonneg_right hpx hp'.le)
    (div_le_div_of_nonpos_of_le hn'.le hnx)

end RatRow

end LoopLegality

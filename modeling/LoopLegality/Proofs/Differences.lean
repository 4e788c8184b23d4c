import LoopLegality.Direction.Search
import LoopLegality.Proofs.RationalPoint

namespace LoopLegality

open DependenceProblem (difference)

namespace Word

theorem fits_of_natAbs {n : Int} (h : n.natAbs ≤ 9223372036854775807) : Fits n := by
  unfold Fits
  omega

end Word

namespace Row

variable {n : Nat} {r s : Row}

theorem getD_difference (n a b v : Nat) : (difference n a b).getD v 0 =
    if v < n then (if v = a then 1 else 0) - (if v = b then 1 else 0) else 0 := by
  by_cases hv : v < n <;> simp [difference, hv]

theorem length_difference (n a b : Nat) : (difference n a b).length = n := by simp [difference]

theorem ext_getD {as bs : List Int} (hlen : as.length = bs.length)
    (h : ∀ v < as.length, as.getD v 0 = bs.getD v 0) : as = bs := by
  refine List.ext_getElem hlen fun v h₁ h₂ => ?_
  have hv := h v h₁
  rwa [List.getD_eq_getElem _ _ h₁, List.getD_eq_getElem _ _ h₂] at hv

/-- The row compares the difference of two unknowns. One that is not below `n` counts as zero. -/
def IsDifference (n : Nat) (r : Row) : Prop := ∃ a b, r.coeffs = difference n a b

def IsMultiple (n : Nat) (r : Row) : Prop := ∃ g a b, r.coeffs = (difference n a b).map (g * ·)

theorem IsDifference.isMultiple (h : r.IsDifference n) : r.IsMultiple n := by
  obtain ⟨a, b, h⟩ := h
  exact ⟨1, a, b, by simp [h]⟩

theorem IsMultiple.length (h : r.IsMultiple n) : r.coeffs.length = n := by
  obtain ⟨g, a, b, h⟩ := h
  rw [h, List.length_map, length_difference]

theorem coeff_of_isDifference {a b : Nat} (h : r.coeffs = difference n a b) (v : Nat) :
    r.coeff v = if v < n then (if v = a then 1 else 0) - (if v = b then 1 else 0) else 0 := by
  rw [coeff, h, getD_difference]

theorem natAbs_coeff_le (h : r.IsDifference n) (v : Nat) : (r.coeff v).natAbs ≤ 1 := by
  obtain ⟨a, b, h⟩ := h
  rw [coeff_of_isDifference h]
  split_ifs <;> decide

theorem natAbs_le_of_mem (h : r.IsDifference n) {c : Int} (hc : c ∈ r.coeffs) : c.natAbs ≤ 1 := by
  obtain ⟨v, hv, rfl⟩ := List.getElem_of_mem hc
  have hle := natAbs_coeff_le h v
  rwa [coeff, List.getD_eq_getElem _ _ hv] at hle

theorem map_neg_difference (n a b : Nat) : (difference n a b).map (- ·) = difference n b a := by
  simp [difference]

theorem dvd_gcd_fold {d : Nat} {cs : List Int} (h : ∀ c ∈ cs, (d : Int) ∣ c) {g : Nat}
    (hg : d ∣ g) :
    d ∣ cs.foldl (fun g c => Nat.gcd g c.natAbs) g := by
  induction cs generalizing g with
  | nil => exact hg
  | cons c cs ih =>
    rw [List.forall_mem_cons] at h
    exact ih h.2 (Nat.dvd_gcd hg (Int.natCast_dvd.mp h.1))

end Row

namespace RatRow

open Row

variable {n : Nat} {r : Row}

theorem reduce_eq_self (h : ∀ c ∈ r.coeffs, c.natAbs ≤ 1) : reduce r = r := by
  have hle : ¬ 1 < r.content := by
    intro hg
    have hzero : ∀ c ∈ r.coeffs, c = 0 := by
      intro c hc
      refine Int.eq_zero_of_dvd_of_natAbs_lt_natAbs (content_dvd hc) ?_
      have hc := h c hc
      omega
    have hdvd : ∀ c ∈ r.coeffs, ((0 : Nat) : Int) ∣ c := fun c hc => by simp [hzero c hc]
    have hfold : 0 ∣ r.content := dvd_gcd_fold hdvd (dvd_refl 0)
    omega
  exact if_neg hle

theorem isDifference_of_small {g : Int} {a b : Nat} (h : r.coeffs = (difference n a b).map (g * ·))
    (hsmall : ∀ c ∈ r.coeffs, c.natAbs ≤ 1) : r.IsDifference n := by
  by_cases hzero : ∀ c ∈ r.coeffs, c = 0
  · refine ⟨n, n, ext_getD ?_ fun v hv => ?_⟩
    · rw [h, List.length_map, length_difference, length_difference]
    · rw [List.getD_eq_getElem _ _ hv, hzero _ (List.getElem_mem hv), getD_difference]
      simp
  · push Not at hzero
    obtain ⟨c, hc, hne⟩ := hzero
    have hle := hsmall c hc
    obtain ⟨d, hd, rfl⟩ := List.mem_map.mp (h ▸ hc)
    -- an entry that is not zero has the size of the factor
    have hg : g.natAbs ≤ 1 := by
      refine le_trans (Nat.le_of_dvd (by omega) ?_) hle
      exact Int.natAbs_dvd_natAbs.mpr (dvd_mul_right g d)
    have hg' : g ≠ 0 := left_ne_zero_of_mul hne
    obtain rfl | rfl : g = 1 ∨ g = -1 := by omega
    · exact ⟨a, b, by simpa using h⟩
    · refine ⟨b, a, ?_⟩
      rw [h, ← map_neg_difference n a b]
      simp

theorem isDifference_reduce (h : r.IsMultiple n) :
    (reduce r).IsDifference n ∧ (reduce r).rhs.natAbs ≤ r.rhs.natAbs := by
  obtain ⟨g, a, b, h⟩ := h
  by_cases hsmall : ∀ c ∈ r.coeffs, c.natAbs ≤ 1
  · rw [reduce_eq_self hsmall]
    exact ⟨isDifference_of_small h hsmall, le_rfl⟩
  · push Not at hsmall
    obtain ⟨c, hc, hbig⟩ := hsmall
    obtain ⟨d, hd, rfl⟩ := List.mem_map.mp (h ▸ hc)
    have hdiff : (⟨difference n a b, 0⟩ : Row).IsDifference n := ⟨a, b, rfl⟩
    have hd1 : d.natAbs = 1 := by
      have hle := natAbs_le_of_mem hdiff hd
      have hne : d ≠ 0 := by rintro rfl; simp at hbig
      omega
    have hgcd : r.content = g.natAbs := by
      refine Nat.dvd_antisymm ?_ (dvd_gcd_fold (fun c hc => ?_) (dvd_zero _))
      · have hdvd := Int.natCast_dvd.mp (content_dvd hc)
        rwa [Int.natAbs_mul, hd1, mul_one] at hdvd
      · obtain ⟨e, -, rfl⟩ := List.mem_map.mp (h ▸ hc)
        exact Int.natAbs_dvd.mpr (dvd_mul_right g e)
    rw [Int.natAbs_mul, hd1, mul_one] at hbig
    have hreduce : reduce r = ⟨r.coeffs.map (· / (g.natAbs : Int)), r.rhs / g.natAbs⟩ := by
      rw [reduce, hgcd]
      exact if_pos hbig
    rw [hreduce]
    refine ⟨?_, Int.natAbs_ediv_le_natAbs _ _⟩
    have hcoeffs : r.coeffs.map (· / (g.natAbs : Int)) = (difference n a b).map (g.sign * ·) := by
      rw [h, List.map_map]
      refine List.map_congr_left fun e _ => ?_
      have hg : (g.natAbs : Int) ≠ 0 := by omega
      calc g * e / (g.natAbs : Int) = g.natAbs * (g.sign * e) / g.natAbs := by
            rw [← mul_assoc, mul_comm (g.natAbs : Int), Int.sign_mul_natAbs]
        _ = g.sign * e := Int.mul_ediv_cancel_left _ hg
    refine isDifference_of_small hcoeffs fun c hc => ?_
    obtain ⟨e, he, rfl⟩ := List.mem_map.mp (hcoeffs ▸ hc)
    rw [Int.natAbs_mul]
    have hsign : g.sign.natAbs ≤ 1 := by
      rw [Int.natAbs_sign]
      split <;> decide
    exact Nat.mul_le_mul hsign (natAbs_le_of_mem hdiff he)

theorem tighten_ofRow (h : ∀ c ∈ r.coeffs, Word.Fits c) (hb : Word.Fits r.rhs) {g : Nat}
    (hg : r.coeffs.foldlM Word.gcd 0 = .ok g) : (ofRow r).tighten = .ok (reduce r) := by
  have hden : (ofRow r).denominator = 1 := by
    have hfold (qs : List Rat) (hq : ∀ q ∈ qs, q.den = 1) :
        qs.foldl (fun l q => Nat.lcm l q.den) 1 = 1 := by
      induction qs with
      | nil => rfl
      | cons q qs ih =>
        rw [List.forall_mem_cons] at hq
        rw [List.foldl_cons, hq.1, Nat.lcm_self, ih hq.2]
    refine hfold _ fun q hq => ?_
    obtain hq | hq := List.mem_append.mp hq
    · obtain ⟨c, -, rfl⟩ := List.mem_map.mp hq
      exact Rat.den_intCast c
    · exact List.mem_singleton.mp hq ▸ Rat.den_intCast r.rhs
  have hscaled (c : Int) (hc : Word.Fits c) : scaled? 1 (c : Rat) = some c := by
    rw [scaled?, Rat.num_intCast, Rat.den_intCast, Word.mul?, Nat.div_self Nat.one_pos,
      Nat.cast_one, mul_one, Word.fit?_of_fits hc]
  have hcoeffs : (ofRow r).coeffs.mapM (scaled? 1) = some r.coeffs := by
    rw [ofRow, mapM_eq_some, List.forall₂_map_left_iff, List.forall₂_same]
    exact fun c hc => hscaled c (h c hc)
  have hrhs : scaled? 1 (ofRow r).rhs = some r.rhs := hscaled r.rhs hb
  obtain rfl : r.content = g := foldlM_gcd hg
  rw [tighten, hden]
  refine bind_eq_ok.mpr ⟨_, scaleAll_eq_ok.mpr ⟨hcoeffs, hg⟩, ?_⟩
  rw [hrhs]
  rfl

theorem tighten_ofRow_of_natAbs (h : ∀ c ∈ r.coeffs, c.natAbs ≤ 9223372036854775807)
    (hb : r.rhs.natAbs ≤ 9223372036854775807) : (ofRow r).tighten = .ok (reduce r) := by
  obtain ⟨g, hg⟩ := exists_foldlM_gcd h (Nat.zero_le _)
  exact tighten_ofRow (fun c hc => Word.fits_of_natAbs (h c hc)) (Word.fits_of_natAbs hb) hg

theorem add?_mkRat_one {a b : Int} (ha : Word.Fits a) (hb : Word.Fits b)
    (hab : Word.Fits (a + b)) : add? (mkRat a 1) (mkRat b 1) = some ((a + b : Int) : Rat) := by
  have hone : Word.fit? 1 = some 1 := rfl
  simp [add?, Rat.mkRat_one, Word.mul?, Word.add?, hone, Word.fit?_of_fits ha,
    Word.fit?_of_fits hb, Word.fit?_of_fits hab]

theorem combine_of_unit {v : Nat} {p m : Row} (hp : p.coeff v = 1) (hm : m.coeff v = -1)
    (hcoeffs : ∀ q ∈ p.coeffs.zip m.coeffs, Word.Fits q.1 ∧ Word.Fits q.2 ∧ Word.Fits (q.1 + q.2))
    (hrhs : Word.Fits p.rhs ∧ Word.Fits m.rhs ∧ Word.Fits (p.rhs + m.rhs)) :
    combine v p m = .ok (ofRow ⟨List.zipWith (· + ·) p.coeffs m.coeffs, p.rhs + m.rhs⟩) := by
  have hsum : (p.coeffs.zip m.coeffs).mapM (fun q => add? (mkRat q.1 1) (mkRat q.2 1)) =
      some ((List.zipWith (· + ·) p.coeffs m.coeffs).map fun c : Int => (c : Rat)) := by
    rw [mapM_eq_some.mpr (forall₂_map fun q hq => add?_mkRat_one (hcoeffs q hq).1
      (hcoeffs q hq).2.1 (hcoeffs q hq).2.2), List.map_zipWith, List.map_zip_eq_zipWith]
    rfl
  have hset : ((List.zipWith (· + ·) p.coeffs m.coeffs).map fun c : Int => (c : Rat)).set v 0 =
      (List.zipWith (· + ·) p.coeffs m.coeffs).map fun c : Int => (c : Rat) := by
    refine List.ext_getElem (by simp) fun w hw _ => ?_
    rw [List.getElem_set]
    split
    · next hvw =>
      subst hvw
      simp only [List.length_set, List.length_map, List.length_zipWith, lt_min_iff] at hw
      rw [coeff, List.getD_eq_getElem _ _ hw.1] at hp
      rw [coeff, List.getD_eq_getElem _ _ hw.2] at hm
      simp [hp, hm]
    · rfl
  refine bind_eq_ok.mpr ⟨1, by rw [hp]; rfl, bind_eq_ok.mpr ⟨1, by rw [hm]; rfl, ?_⟩⟩
  rw [hsum, add?_mkRat_one hrhs.1 hrhs.2.1 hrhs.2.2]
  exact congrArg (fun cs => Except.ok (⟨cs, _⟩ : RatRow)) hset

end RatRow

namespace Row

variable {n : Nat} {r : Row}

def entry {α : Type} [Zero α] (n : Nat) (x : Nat → α) (v : Nat) : α := if v < n then x v else 0

theorem valueAt_of_difference {a b : Nat} (h : r.coeffs = difference n a b) (x : Nat → Rat) :
    r.valueAt x = entry n x a - entry n x b := by
  have hlen : r.coeffs.length = n := h ▸ length_difference n a b
  rw [valueAt_eq_sum, hlen]
  have hterm (w : Nat) (hw : w ∈ Finset.range n) : (r.coeff w : Rat) * x w =
      (if w = a then x w else 0) - if w = b then x w else 0 := by
    rw [coeff_of_isDifference h, if_pos (Finset.mem_range.mp hw)]
    push_cast
    rw [sub_mul, ite_mul, ite_mul, one_mul, zero_mul]
  rw [Finset.sum_congr rfl hterm, Finset.sum_sub_distrib]
  simp only [Finset.sum_ite_eq', Finset.mem_range, entry]

theorem value_of_difference {a b : Nat} (h : r.coeffs = difference n a b) (x : Nat → Int) :
    r.value x = entry n x a - entry n x b := by
  have hcast := valueAt_of_difference h fun v => (x v : Rat)
  rw [valueAt, RatRow.value, RatRow.ofRow, RatRow.dotFrom_map_cast] at hcast
  have hentry (v : Nat) : entry n (fun v => (x v : Rat)) v = (entry n x v : Int) := by
    by_cases hv : v < n <;> simp [entry, hv]
  rw [hentry, hentry] at hcast
  exact_mod_cast hcast

/-- Rounding every coordinate down keeps a bound on a difference. -/
theorem holds_floor (h : r.IsDifference n) {x : Nat → Rat} (hx : r.HoldsAt x) :
    r.Holds fun v => ⌊x v⌋ := by
  obtain ⟨a, b, h⟩ := h
  rw [HoldsAt, valueAt_of_difference h] at hx
  rw [Holds, value_of_difference h]
  have hfloor (v : Nat) : entry n (fun v => ⌊x v⌋) v = ⌊entry n x v⌋ := by
    by_cases hv : v < n <;> simp [entry, hv]
  rw [hfloor, hfloor, sub_le_iff_le_add', ← Int.floor_add_intCast]
  exact Int.floor_le_floor (by linarith)

/-- Two bounds on differences, one from above and one from below on the unknown, add up to a bound
on a difference. -/
theorem exists_combined {p m : Row} {v R : Nat} (hp : p.IsDifference n) (hm : m.IsDifference n)
    (hpos : 0 < p.coeff v) (hneg : m.coeff v < 0) (hpR : p.rhs.natAbs ≤ R)
    (hmR : m.rhs.natAbs ≤ R) (hR : 2 * R ≤ 9223372036854775807) :
    ∃ s, (do (← RatRow.combine v p m).tighten) = .ok s ∧ s.IsDifference n ∧
      s.rhs = p.rhs + m.rhs ∧ ∀ w, s.coeff w = p.coeff w + m.coeff w := by
  obtain ⟨a, b, hpc⟩ := id hp
  obtain ⟨c, d, hmc⟩ := id hm
  rw [coeff_of_isDifference hpc] at hpos
  rw [coeff_of_isDifference hmc] at hneg
  have hv : v < n := by
    by_contra hv
    simp [hv] at hpos
  obtain ⟨rfl, hb⟩ : v = a ∧ v ≠ b := by
    rw [if_pos hv] at hpos
    split_ifs at hpos <;> simp_all
  obtain ⟨rfl, hc⟩ : v = d ∧ v ≠ c := by
    rw [if_pos hv] at hneg
    split_ifs at hneg <;> simp_all
  have hp1 : p.coeff v = 1 := by simp [coeff_of_isDifference hpc, hv, hb]
  have hm1 : m.coeff v = -1 := by simp [coeff_of_isDifference hmc, hv, hc]
  let t : Row := ⟨List.zipWith (· + ·) p.coeffs m.coeffs, p.rhs + m.rhs⟩
  have hcoeff (w : Nat) : t.coeff w = p.coeff w + m.coeff w := by
    have hlen : t.coeffs.length = n := by simp [t, hpc, hmc, length_difference]
    by_cases hw : w < n
    · have hwp : w < p.coeffs.length := by rwa [hpc, length_difference]
      have hwm : w < m.coeffs.length := by rwa [hmc, length_difference]
      simp only [coeff, t]
      rw [List.getD_eq_getElem _ _ (hlen.symm ▸ hw), List.getD_eq_getElem _ _ hwp,
        List.getD_eq_getElem _ _ hwm, List.getElem_zipWith]
    · rw [coeff_of_length_le (by omega), coeff_of_isDifference hpc, coeff_of_isDifference hmc,
        if_neg hw, if_neg hw, add_zero]
  have hdiff : t.IsDifference n := by
    refine ⟨c, b, ext_getD (by simp [t, hpc, hmc, length_difference]) fun w _ => ?_⟩
    change t.coeff w = _
    rw [hcoeff, coeff_of_isDifference hpc, coeff_of_isDifference hmc, getD_difference]
    split_ifs <;> simp_all
  have hsmall : ∀ e ∈ t.coeffs, e.natAbs ≤ 1 := fun e he => natAbs_le_of_mem hdiff he
  have htighten : (RatRow.ofRow t).tighten = .ok t := by
    rw [RatRow.tighten_ofRow_of_natAbs, RatRow.reduce_eq_self hsmall]
    · exact fun e he => (hsmall e he).trans (by decide)
    · show (p.rhs + m.rhs).natAbs ≤ _
      omega
  have hcombine : RatRow.combine v p m = .ok (RatRow.ofRow t) := by
    refine RatRow.combine_of_unit hp1 hm1 (fun q hq => ?_) ⟨?_, ?_, ?_⟩
    · obtain ⟨hq₁, hq₂⟩ := List.of_mem_zip hq
      have h₁ := natAbs_le_of_mem hp hq₁
      have h₂ := natAbs_le_of_mem hm hq₂
      exact ⟨Word.fits_of_natAbs (by omega), Word.fits_of_natAbs (by omega),
        Word.fits_of_natAbs (by omega)⟩
    all_goals exact Word.fits_of_natAbs (by omega)
  exact ⟨t, bind_eq_ok.mpr ⟨_, hcombine, htighten⟩, hdiff, rfl, hcoeff⟩

end Row

namespace ConstraintSystem

variable {n v R : Nat} {rs : List Row}

/-- Bounds on differences whose right sides are at most `R` in size. -/
def Bounding (n R : Nat) (rs : List Row) : Prop := ∀ r ∈ rs, r.IsDifference n ∧ r.rhs.natAbs ≤ R

def sizeWithout (v : Nat) (rs : List Row) : Nat :=
  countWhere (fun r => r.coeff v = 0) rs +
    countWhere (fun r => 0 < r.coeff v) rs * countWhere (fun r => r.coeff v < 0) rs

theorem exists_combineAll {lower upper : List Row}
    (h : ∀ p ∈ upper, ∀ m ∈ lower, ∃ s, (do (← RatRow.combine v p m).tighten) = .ok s)
    (hsize : rs.length + upper.length * lower.length ≤ maxRows) :
    ∃ ss, combineAll v lower upper rs = .ok ss ∧
      ss.length = rs.length + upper.length * lower.length := by
  induction upper generalizing rs with
  | nil => exact ⟨rs, rfl, by simp⟩
  | cons p upper ih =>
    rw [List.forall_mem_cons] at h
    obtain ⟨ts, hts⟩ := exists_forall₂ h.1
    have hlen : (rs ++ ts).length + upper.length * lower.length =
        rs.length + (p :: upper).length * lower.length := by
      rw [List.length_append, ← hts.length_eq, List.length_cons]
      ring
    obtain ⟨ss, hss, hsslen⟩ := ih h.2 (hlen ▸ hsize)
    refine ⟨ss, bind_eq_ok.mpr ⟨ts, mapM_eq_ok.mpr hts, ?_⟩, hsslen.trans hlen⟩
    rw [← hlen] at hsize
    have hguard : ¬ maxRows < (rs ++ ts).length := by omega
    dsimp only
    rw [if_neg hguard]
    exact hss

/-- Elimination keeps bounds on differences, at most twice as large, and mentions no unknown
that was not mentioned before. -/
theorem exists_eliminate (h : Bounding n R rs) (hR : 2 * R ≤ 9223372036854775807)
    (hsize : sizeWithout v rs ≤ maxRows) :
    ∃ ss, eliminate v rs = .ok ss ∧ ss.length = sizeWithout v rs ∧ Bounding n (2 * R) ss ∧
      ∀ s ∈ ss, ∀ w, s.coeff w ≠ 0 → w ≠ v ∧ ∃ r ∈ rs, r.coeff w ≠ 0 := by
  have hcombine {p m : Row} (hp : p ∈ rs) (hm : m ∈ rs) (hpos : 0 < p.coeff v)
      (hneg : m.coeff v < 0) := Row.exists_combined (h p hp).1 (h m hm).1 hpos hneg (h p hp).2
        (h m hm).2 hR
  obtain ⟨ss, hsome, hlen⟩ : ∃ ss, eliminate v rs = .ok ss ∧ ss.length = sizeWithout v rs := by
    refine exists_combineAll (fun p hp m hm => ?_) hsize
    simp only [List.mem_filter, decide_eq_true_eq] at hp hm
    obtain ⟨s, hs, -⟩ := hcombine hp.1 hm.1 hp.2 hm.2
    exact ⟨s, hs⟩
  refine ⟨ss, hsome, hlen, ?_, ?_⟩
  · intro s hs
    obtain ⟨hs, -⟩ | ⟨p, hp, m, hm, hpos, hneg, c, hc, ht⟩ := (mem_eliminate hsome).1 s hs
    · exact ⟨(h s hs).1, (h s hs).2.trans (by omega)⟩
    · obtain ⟨t, ht', hdiff, hrhs, -⟩ := hcombine hp hm hpos hneg
      obtain rfl : s = t := Except.ok.inj ((bind_eq_ok.mpr ⟨c, hc, ht⟩).symm.trans ht')
      refine ⟨hdiff, ?_⟩
      have hpR := (h p hp).2
      have hmR := (h m hm).2
      omega
  · intro s hs w hw
    obtain ⟨hs, hzero⟩ | ⟨p, hp, m, hm, hpos, hneg, c, hc, ht⟩ := (mem_eliminate hsome).1 s hs
    · refine ⟨?_, s, hs, hw⟩
      rintro rfl
      exact hw hzero
    · obtain ⟨t, ht', -, -, hcoeff⟩ := hcombine hp hm hpos hneg
      obtain rfl : s = t := Except.ok.inj ((bind_eq_ok.mpr ⟨c, hc, ht⟩).symm.trans ht')
      rw [hcoeff] at hw
      refine ⟨?_, ?_⟩
      · rintro rfl
        have hp1 := Row.natAbs_coeff_le (h p hp).1 w
        have hm1 := Row.natAbs_coeff_le (h m hm).1 w
        omega
      · by_cases hpw : p.coeff w = 0
        · exact ⟨m, hm, by omega⟩
        · exact ⟨p, hp, hpw⟩

/-- The number of rows from which so many unknowns can be eliminated within the limit. -/
def capacity : Nat → Nat
  | 0 => maxRows
  | k + 1 => 2 * Nat.sqrt (capacity k)

theorem capacity_one : capacity 1 = 128 := by
  have h₀ : capacity 0 = 4096 := rfl
  rw [capacity, h₀, ← Nat.eq_sqrt.mpr (show 64 * 64 ≤ 4096 ∧ 4096 < 65 * 65 by decide)]

theorem capacity_two : capacity 2 = 22 := by
  rw [capacity, capacity_one, ← Nat.eq_sqrt.mpr (show 11 * 11 ≤ 128 ∧ 128 < 12 * 12 by decide)]

theorem capacity_bounds {k : Nat} (h : k ≤ 2) : 4 ≤ capacity k ∧ capacity k ≤ maxRows := by
  interval_cases k
  · exact ⟨by decide, le_rfl⟩
  · rw [capacity_one]
    decide
  · rw [capacity_two]
    decide

theorem countWhere_parts (v : Nat) (rs : List Row) :
    countWhere (fun r => r.coeff v = 0) rs + countWhere (fun r => 0 < r.coeff v) rs +
      countWhere (fun r => r.coeff v < 0) rs = rs.length := by
  induction rs with
  | nil => rfl
  | cons r rs ih =>
    simp only [countWhere, List.filter_cons, List.length_cons] at *
    obtain hr | hr | hr := lt_trichotomy (r.coeff v) 0
    · simp [hr, hr.ne, hr.le.not_gt]
      omega
    · simp [hr]
      omega
    · simp [hr, hr.ne', hr.le.not_gt]
      omega

theorem sizeWithout_le {C : Nat} (hC : 4 ≤ C) (h : rs.length ≤ 2 * Nat.sqrt C) :
    sizeWithout v rs ≤ C := by
  have hroot : 2 ≤ Nat.sqrt C := Nat.le_sqrt.mpr hC
  have hsquare : Nat.sqrt C * Nat.sqrt C ≤ C := Nat.sqrt_le C
  rw [← countWhere_parts v] at h
  rw [sizeWithout]
  generalize countWhere (fun r => r.coeff v = 0) rs = free at *
  generalize countWhere (fun r => 0 < r.coeff v) rs = pos at *
  generalize countWhere (fun r => r.coeff v < 0) rs = neg at *
  generalize Nat.sqrt C = root at *
  refine le_trans ?_ hsquare
  zify at *
  -- the product is largest if the rows are all taken by the two equal factors
  have hfactors : ((pos : Int) + neg) ^ 2 ≤ (2 * root - free) ^ 2 :=
    pow_le_pow_left₀ (by positivity) (by linarith) 2
  have hfree : 0 ≤ (free : Int) * (4 * root - free - 4) :=
    mul_nonneg (by positivity) (by linarith)
  nlinarith [sq_nonneg ((pos : Int) - neg)]

theorem length_normalize_le (rs : List Row) : (Row.normalize rs).length ≤ rs.length := by
  have hdrop (rs : List Row) : (Row.dropRepeats rs).length ≤ rs.length := by
    fun_induction Row.dropRepeats rs with
    | case1 r rs ih => exact ih.trans (Nat.le_succ _)
    | case2 r s rs _ ih => exact Nat.succ_le_succ ih
    | case3 => exact le_rfl
  exact (hdrop _).trans (List.length_mergeSort ..).le

/-- Elimination settles bounds on the differences of a few unknowns. -/
theorem exists_eliminateAll {k : Nat} (live : Finset Nat) (h : Bounding n R rs)
    (hlive : ∀ r ∈ rs, ∀ w, r.coeff w ≠ 0 → w ∈ live) (hk : live.card < k)
    (hcard : live.card ≤ 3) (hlen : rs.length ≤ capacity live.card)
    (hR : 2 ^ live.card * R ≤ 9223372036854775807) :
    eliminateAll n k rs = .ok .infeasible ∨ eliminateAll n k rs = .ok .feasible := by
  induction k generalizing rs live R with
  | zero => omega
  | succ k ih =>
    rw [eliminateAll]
    split
    · exact Or.inl rfl
    · dsimp only
      set ts := Row.normalize (rs.filter (!·.isTrivial)) with hts
      have hmem : ∀ r ∈ ts, r ∈ rs := fun r hr =>
        (List.mem_filter.mp (Row.mem_normalize.mp hr)).1
      have hlen' : ts.length ≤ rs.length :=
        (length_normalize_le _).trans (List.length_filter_le ..)
      split
      · exact Or.inr rfl
      · next v hv =>
        obtain ⟨hnone, -⟩ | ⟨u, -, hu, r, hr, hru⟩ := cheapest?_cases n ts
        · rw [hnone] at hv
          cases hv
        · obtain rfl : u = v := Option.some.inj (hu.symm.trans hv)
          have hmemlive : u ∈ live := hlive r (hmem r hr) u hru
          have hcard' : (live.erase u).card + 1 = live.card := Finset.card_erase_add_one hmemlive
          have hcap : capacity live.card = 2 * Nat.sqrt (capacity (live.erase u).card) := by
            rw [← hcard', capacity]
          obtain ⟨hfour, hmax⟩ := capacity_bounds (k := (live.erase u).card) (by omega)
          have hsize : sizeWithout u ts ≤ capacity (live.erase u).card :=
            sizeWithout_le hfour (hcap ▸ hlen'.trans hlen)
          have hdouble : 2 ^ (live.erase u).card * (2 * R) ≤ 9223372036854775807 := by
            rwa [← hcard', pow_succ, mul_assoc] at hR
          have htwice : 2 * R ≤ 9223372036854775807 :=
            (Nat.le_mul_of_pos_left _ (by positivity)).trans hdouble
          obtain ⟨ss, hss, hsslen, hbound, hmention⟩ := exists_eliminate
            (fun r hr => h r (hmem r hr)) htwice (hsize.trans hmax)
          rw [hss]
          refine ih (live.erase u) hbound (fun s hs w hw => ?_) (by omega) (by omega)
            (hsslen ▸ hsize) hdouble
          obtain ⟨hwu, r', hr', hrw⟩ := hmention s hs w hw
          exact Finset.mem_erase.mpr ⟨hwu, hlive r' (hmem r' hr') w hrw⟩

/-- Elimination decides bounds on the differences of a few unknowns. -/
theorem infeasible_or_exists {k : Nat} (live : Finset Nat) (h : Bounding n R rs)
    (hlive : ∀ r ∈ rs, ∀ w, r.coeff w ≠ 0 → w ∈ live) (hk : live.card < k)
    (hcard : live.card ≤ 3) (hlen : rs.length ≤ capacity live.card)
    (hR : 2 ^ live.card * R ≤ 9223372036854775807) :
    eliminateAll n k rs = .ok .infeasible ∨
      eliminateAll n k rs = .ok .feasible ∧ ∃ x : Nat → Int, ∀ r ∈ rs, r.Holds x := by
  refine (exists_eliminateAll live h hlive hk hcard hlen hR).imp_right fun hanswer =>
    ⟨hanswer, ?_⟩
  obtain ⟨x, hx⟩ := exists_of_eliminateAll hanswer fun r hr => (h r hr).1.isMultiple.length
  exact ⟨fun v => ⌊x v⌋, fun r hr => Row.holds_floor (h r hr).1 (hx r hr)⟩

/-- Multiples of differences that words can hold, with right sides at most `R` in size. -/
def Multiples (n R : Nat) (rs : List Row) : Prop :=
  ∀ r ∈ rs, r.IsMultiple n ∧ (∀ c ∈ r.coeffs, c.natAbs ≤ 9223372036854775807) ∧ r.rhs.natAbs ≤ R

theorem asInequalities?_of_multiples {es : List Row} (h : Multiples n R es)
    (hR : R ≤ 9223372036854775807) :
    ∃ ps, asInequalities? es = some ps ∧ ps.length = 2 * es.length ∧ Multiples n R ps ∧
      ∀ p ∈ ps, ∀ w, p.coeff w ≠ 0 → ∃ e ∈ es, e.coeff w ≠ 0 := by
  let negated (e : Row) : Row := ⟨e.coeffs.map (- ·), -e.rhs⟩
  have hneg (e : Row) (he : e ∈ es) : e.neg? = some (negated e) := by
    obtain ⟨-, hcoeffs, hrhs⟩ := h e he
    have hmap : e.coeffs.mapM Word.neg? = some (e.coeffs.map (- ·)) :=
      mapM_eq_some.mpr (forall₂_map fun c hc =>
        Word.fit?_of_fits (Word.fits_of_natAbs (by rw [Int.natAbs_neg]; exact hcoeffs c hc)))
    have hrhs' : Word.neg? e.rhs = some (-e.rhs) :=
      Word.fit?_of_fits (Word.fits_of_natAbs (by rw [Int.natAbs_neg]; exact hrhs.trans hR))
    simp [Row.neg?, hmap, hrhs', negated]
  have hpairs : es.mapM (fun e => do return [e, ← e.neg?]) =
      some (es.map fun e => [e, negated e]) :=
    mapM_eq_some.mpr (forall₂_map fun e he => by simp [hneg e he])
  have hsome : asInequalities? es = some (es.map fun e => [e, negated e]).flatten := by
    rw [asInequalities?, hpairs]
    rfl
  refine ⟨_, hsome, ?_, fun p hp => ?_, fun p hp w hw => ?_⟩
  · simp [List.length_flatten, Function.comp_def, mul_comm]
  · obtain ⟨e, he, rfl | hpe⟩ := (mem_asInequalities hsome).1 p hp
    · exact h p he
    · obtain rfl : negated e = p := Option.some.inj ((hneg e he).symm.trans hpe)
      obtain ⟨⟨g, a, b, hmul⟩, hcoeffs, hrhs⟩ := h e he
      refine ⟨⟨-g, a, b, ?_⟩, ?_, ?_⟩
      · simp [negated, hmul, List.map_map, Function.comp_def]
      · intro c hc
        obtain ⟨d, hd, rfl⟩ := List.mem_map.mp hc
        rw [Int.natAbs_neg]
        exact hcoeffs d hd
      · simpa [negated] using hrhs
  · obtain ⟨e, he, rfl | hpe⟩ := (mem_asInequalities hsome).1 p hp
    · exact ⟨p, he, hw⟩
    · refine ⟨e, he, fun hzero => hw ?_⟩
      rw [(Row.neg?_spec hpe).2.1, hzero, neg_zero]

theorem coeff_of_reduce {r : Row} {w : Nat} (h : (RatRow.reduce r).coeff w ≠ 0) :
    r.coeff w ≠ 0 := by
  intro hzero
  apply h
  rw [RatRow.reduce, RatRow.divideBy]
  split
  · rw [Row.coeff] at hzero ⊢
    rw [← Int.zero_ediv (_ : Int), List.getD_map, hzero]
  · exact hzero

/-- If solving equations leaves multiples of differences of a few unknowns, the answer is right:
the system is infeasible or has an integer point. -/
theorem infeasible_or_satisfies {s : ConstraintSystem} {es : List Row} (live : Finset Nat)
    (hs : solveUnits s.equations.length s.equations s.rows = .ok (es, rs))
    (hes : Multiples s.vars R es) (hrs : Multiples s.vars R rs)
    (hlive : ∀ r ∈ es ++ rs, ∀ w, r.coeff w ≠ 0 → w ∈ live) (hvars : live.card ≤ s.vars)
    (hcard : live.card ≤ 3) (hlen : 2 * es.length + rs.length ≤ capacity live.card)
    (hR : 2 ^ live.card * R ≤ 9223372036854775807) :
    s.feasibility = .ok .infeasible ∨ s.feasibility = .ok .feasible ∧ ∃ x, s.Satisfies x := by
  have hR' : R ≤ 9223372036854775807 := (Nat.le_mul_of_pos_left _ (by positivity)).trans hR
  obtain ⟨ps, hps, hpslen, hpsmul, hpslive⟩ := asInequalities?_of_multiples hes hR'
  have hall : Multiples s.vars R (ps ++ rs) := List.forall_mem_append.mpr ⟨hpsmul, hrs⟩
  have htighten : (ps ++ rs).mapM (fun r => (RatRow.ofRow r).tighten) =
      .ok ((ps ++ rs).map RatRow.reduce) := mapM_eq_ok.mpr (forall₂_map fun r hr =>
    RatRow.tighten_ofRow_of_natAbs (hall r hr).2.1 ((hall r hr).2.2.trans hR'))
  have hbounding : Bounding s.vars R ((ps ++ rs).map RatRow.reduce) := by
    simp only [Bounding, List.forall_mem_map]
    intro r hr
    obtain ⟨hdiff, hle⟩ := RatRow.isDifference_reduce (hall r hr).1
    exact ⟨hdiff, hle.trans (hall r hr).2.2⟩
  have hlive' : ∀ r ∈ (ps ++ rs).map RatRow.reduce, ∀ w, r.coeff w ≠ 0 → w ∈ live := by
    simp only [List.forall_mem_map]
    intro r hr w hw
    have hw := coeff_of_reduce hw
    obtain hr | hr := List.mem_append.mp hr
    · obtain ⟨e, he, hew⟩ := hpslive r hr w hw
      exact hlive e (List.mem_append_left _ he) w hew
    · exact hlive r (List.mem_append_right _ hr) w hw
  obtain ⟨b, hb⟩ : ∃ b, es.allM Row.gcdTest = .ok b :=
    exists_allM_eq_ok fun e he => Row.exists_gcdTest (hes e he).2.1
  have hsettle (answer : Feasibility)
      (h : eliminateAll s.vars (s.vars + 1) ((ps ++ rs).map RatRow.reduce) = .ok answer) :
      s.feasibility = .ok (if b then answer else .infeasible) := by
    refine feasibility_eq_ok.mpr (Or.inl (bind_eq_ok.mpr ⟨(es, rs), hs, ?_⟩))
    refine bind_eq_ok.mpr ⟨b, Stop.unchecked_eq_ok.mpr hb, ?_⟩
    cases b with
    | false => rfl
    | true => exact bind_eq_ok.mpr ⟨ps, Stop.checked_eq_ok.mpr hps,
        bind_eq_ok.mpr ⟨_, htighten, h⟩⟩
  obtain hno | ⟨hyes, z, hz⟩ := infeasible_or_exists (k := s.vars + 1) live hbounding hlive'
    (by omega) hcard (by simpa [hpslen] using hlen) hR
  · left
    rw [hsettle _ hno, ite_self]
  · cases b with
    | false => exact Or.inl (hsettle _ hyes)
    | true =>
    right
    refine ⟨hsettle _ hyes, ?_⟩
    have hzr : ∀ r ∈ ps ++ rs, r.HoldsAt fun v => (z v : Rat) := by
      intro r hr
      exact (RatRow.holds_ofRow r z).mpr
        ((RatRow.holds_reduce r z).mp (hz _ (List.mem_map_of_mem hr)))
    obtain ⟨y, hesy, hrsy, hint⟩ := exists_of_solveUnits hs s.equations_length s.rows_length
      (solvesAt_of_asInequalities hps fun r hr => hzr r (List.mem_append_left _ hr))
      fun r hr => hzr r (List.mem_append_right _ hr)
    obtain ⟨x, rfl⟩ := hint ⟨z, rfl⟩
    refine ⟨x, fun r hr => (RatRow.holds_ofRow r x).mp (hrsy r hr), fun e he => ?_⟩
    have hsolves : e.valueAt (fun v => (x v : Rat)) = e.rhs := hesy e he
    rw [Row.valueAt_intCast] at hsolves
    exact_mod_cast hsolves

end ConstraintSystem

end LoopLegality

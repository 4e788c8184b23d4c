import LoopLegality.Proofs.Differences

namespace LoopLegality

open DependenceProblem (difference)

/-- `g` times the difference of what two unknowns are worth, one unit of `v` being worth `w v`.
An unknown that is not below `n` is worth nothing. -/
def weighted (w : Nat → Int) (n : Nat) (g : Int) (a b : Nat) : List Int :=
  (List.range n).map fun v => g * w v * ((if v = a then 1 else 0) - (if v = b then 1 else 0))

theorem length_weighted (w : Nat → Int) (n : Nat) (g : Int) (a b : Nat) :
    (weighted w n g a b).length = n := by
  simp [weighted]

theorem getD_weighted (w : Nat → Int) (n : Nat) (g : Int) (a b v : Nat) :
    (weighted w n g a b).getD v 0 =
      if v < n then g * w v * ((if v = a then 1 else 0) - (if v = b then 1 else 0)) else 0 := by
  by_cases hv : v < n <;> simp [weighted, hv]

namespace Row

variable {w : Nat → Int} {n v : Nat} {g h : Int} {e r s : Row}

def IsWeighted (w : Nat → Int) (n : Nat) (g : Int) (r : Row) : Prop :=
  ∃ a b, r.coeffs = weighted w n g a b

theorem IsWeighted.length (hr : r.IsWeighted w n g) : r.coeffs.length = n := by
  obtain ⟨a, b, hr⟩ := hr
  rw [hr, length_weighted]

theorem coeff_of_weighted {a b : Nat} (hr : r.coeffs = weighted w n g a b) (v : Nat) : r.coeff v =
    if v < n then g * w v * ((if v = a then 1 else 0) - (if v = b then 1 else 0)) else 0 := by
  rw [coeff, hr, getD_weighted]

theorem natAbs_coeff_le_of_weighted (hr : r.IsWeighted w n g) (v : Nat) :
    (r.coeff v).natAbs ≤ g.natAbs * (w v).natAbs := by
  obtain ⟨a, b, hr⟩ := hr
  rw [coeff_of_weighted hr, ← Int.natAbs_mul]
  split_ifs <;> simp

theorem IsWeighted.lt_of_unit (he : e.IsWeighted w n h) (hunit : e.coeff v * e.coeff v = 1) :
    v < n := by
  by_contra hv
  rw [coeff_of_length_le (he.length ▸ not_lt.mp hv)] at hunit
  cases hunit

theorem natAbs_eq_one_of_unit (he : e.IsWeighted w n h) (hunit : e.coeff v * e.coeff v = 1) :
    (w v).natAbs = 1 ∧ h.natAbs = 1 := by
  have hone : (e.coeff v).natAbs = 1 := Int.natAbs_of_isUnit (IsUnit.of_mul_eq_one _ hunit)
  obtain ⟨a, b, he⟩ := he
  have hdvd : h * w v ∣ e.coeff v := by
    rw [coeff_of_weighted he]
    split
    · exact dvd_mul_right _ _
    · exact dvd_zero _
  have hmul := Int.natAbs_dvd_natAbs.mpr hdvd
  rw [hone, Nat.dvd_one, Int.natAbs_mul] at hmul
  exact ⟨Nat.eq_one_of_mul_eq_one_left hmul, Nat.eq_one_of_mul_eq_one_right hmul⟩

theorem natAbs_le_of_mem_weighted {W : Nat} (hr : r.IsWeighted w n g)
    (hW : ∀ u < n, (w u).natAbs ≤ W) {c : Int} (hc : c ∈ r.coeffs) : c.natAbs ≤ g.natAbs * W := by
  obtain ⟨u, hu, rfl⟩ := List.getElem_of_mem hc
  have hle := natAbs_coeff_le_of_weighted hr u
  rw [coeff, List.getD_eq_getElem _ _ hu] at hle
  exact hle.trans (Nat.mul_le_mul_left _ (hW u (hr.length ▸ hu)))

/-- An unknown that is solved for gives way to the other one of the equation. -/
theorem isWeighted_of_substitute (he : e.IsWeighted w n h) (hr : r.IsWeighted w n g)
    (hunit : e.coeff v * e.coeff v = 1) (hs : substitute? e v r = some s) :
    s.IsWeighted w n g := by
  obtain ⟨hl, hcoeff, -⟩ := substitute?_spec hs (hr.length.trans he.length.symm)
  have hlen := hl.trans hr.length
  have hv := he.lt_of_unit hunit
  obtain ⟨a, b, he⟩ := he
  obtain ⟨c, d, hr⟩ := hr
  refine ⟨if c = v then (if a = v then b else a) else c,
    if d = v then (if a = v then b else a) else d,
    ext_getD (hlen.trans (length_weighted ..).symm) fun u hu => ?_⟩
  rw [hlen] at hu
  change s.coeff u = _
  rw [hcoeff, getD_weighted, if_pos hu, coeff_of_weighted hr, coeff_of_weighted hr,
    coeff_of_weighted he u, if_pos hu, if_pos hu, if_pos hv]
  rw [coeff_of_weighted he, if_pos hv] at hunit ⊢
  have hsquare : h * w v * (h * w v) = 1 ∧ (v = a ∧ v ≠ b ∨ v = b ∧ v ≠ a) := by
    by_cases ha : v = a <;> by_cases hb : v = b <;> simp [ha, hb] at hunit ⊢ <;> grind
  obtain ⟨hsquare, hsign⟩ := hsquare
  have hfactor : g * w v * (h * w v) * (h * w u) = g * w u := by
    linear_combination g * w u * hsquare
  obtain ⟨rfl, hb⟩ | ⟨rfl, ha⟩ := hsign
  · have hends : ((if u = c then 1 else 0) - (if u = d then 1 else 0) : Int) -
        ((if v = c then 1 else 0) - (if v = d then 1 else 0)) *
          ((if u = v then 1 else 0) - (if u = b then 1 else 0)) =
        (if u = (if c = v then b else c) then 1 else 0) -
          (if u = (if d = v then b else d) then 1 else 0) := by grind
    simp only [if_true, hb, if_false]
    linear_combination g * w u * hends - ((if v = c then 1 else 0) - (if v = d then 1 else 0)) *
      ((if u = v then 1 else 0) - (if u = b then 1 else 0)) * hfactor
  · have hends : ((if u = c then 1 else 0) - (if u = d then 1 else 0) : Int) +
        ((if v = c then 1 else 0) - (if v = d then 1 else 0)) *
          ((if u = a then 1 else 0) - (if u = v then 1 else 0)) =
        (if u = (if c = v then a else c) then 1 else 0) -
          (if u = (if d = v then a else d) then 1 else 0) := by grind
    simp only [if_true, ha, ha.symm, if_false]
    linear_combination g * w u * hends + ((if v = c then 1 else 0) - (if v = d then 1 else 0)) *
      ((if u = a then 1 else 0) - (if u = v then 1 else 0)) * hfactor

theorem substitute?_of_coeff_zero (e : Row) (hr : r.coeff v = 0) : substitute? e v r = some r := by
  have hzero : Word.mul? (r.coeff v) (e.coeff v) = some 0 := by
    rw [hr, Word.mul?, zero_mul]
    rfl
  simp [substitute?, hzero]

/-- Substitution succeeds if words can hold the numbers that it meets. -/
theorem exists_substitute (hfactor : Word.Fits (r.coeff v * e.coeff v))
    (hcoeffs : ∀ q ∈ r.coeffs.zip e.coeffs, Word.Fits (r.coeff v * e.coeff v * q.2) ∧
      Word.Fits (q.1 - r.coeff v * e.coeff v * q.2))
    (hrhs : Word.Fits (r.coeff v * e.coeff v * e.rhs) ∧
      Word.Fits (r.rhs - r.coeff v * e.coeff v * e.rhs)) :
    ∃ s, substitute? e v r = some s := by
  generalize hf : r.coeff v * e.coeff v = f at hfactor hcoeffs hrhs
  have hmul : Word.mul? (r.coeff v) (e.coeff v) = some f := by
    rw [Word.mul?, hf, Word.fit?_of_fits hfactor]
  have hstep (c d : Int) (h : Word.Fits (f * d) ∧ Word.Fits (c - f * d)) :
      (do Word.sub? c (← Word.mul? f d)) = some (c - f * d) := by
    simp [Word.mul?, Word.sub?, Word.fit?_of_fits h.1, Word.fit?_of_fits h.2]
  have hmap : (r.coeffs.zip e.coeffs).mapM (fun q => do Word.sub? q.1 (← Word.mul? f q.2)) =
      some ((r.coeffs.zip e.coeffs).map fun q => q.1 - f * q.2) :=
    mapM_eq_some.mpr (forall₂_map fun q hq => hstep q.1 q.2 (hcoeffs q hq))
  simp only [substitute?, hmul, Option.bind_eq_bind, Option.bind_some]
  split
  · exact ⟨r, rfl⟩
  · simp only [Option.bind_eq_bind] at hmap hstep
    rw [hmap, hstep _ _ hrhs]
    exact ⟨_, rfl⟩

/-- What the row is worth, and how large its numbers are. -/
def Weighs (w : Nat → Int) (n G C D : Nat) (r : Row) : Prop :=
  ∃ g, r.IsWeighted w n g ∧ g.natAbs ≤ G ∧ r.rhs.natAbs ≤ C + g.natAbs * D

theorem Weighs.mono {G C D D' : Nat} (hr : r.Weighs w n G C D) (hD : D ≤ D') :
    r.Weighs w n G C D' := by
  obtain ⟨g, hg, hG, hrhs⟩ := hr
  exact ⟨g, hg, hG, hrhs.trans (Nat.add_le_add_left (Nat.mul_le_mul_left _ hD) _)⟩

theorem Weighs.substitute {G C D W : Nat} (hr : r.Weighs w n G C D) (he : e.Weighs w n G C D)
    (hunit : e.coeff v * e.coeff v = 1) (hW : ∀ u < n, (w u).natAbs ≤ W)
    (hGW : 2 * (G * W) ≤ 9223372036854775807)
    (hrhs : C + G * (2 * D + C) ≤ 9223372036854775807) :
    ∃ s, substitute? e v r = some s ∧ s.Weighs w n G C (2 * D + C) := by
  obtain ⟨g, hg, hG, hgr⟩ := hr
  obtain ⟨h, hh, -, hhe⟩ := he
  obtain ⟨hwv, hone⟩ := natAbs_eq_one_of_unit hh hunit
  rw [hone, one_mul] at hhe
  have hev : (e.coeff v).natAbs = 1 := Int.natAbs_of_isUnit (IsUnit.of_mul_eq_one _ hunit)
  have hfactor : (r.coeff v * e.coeff v).natAbs ≤ g.natAbs := by
    have hle := natAbs_coeff_le_of_weighted hg v
    rwa [hwv, mul_one, ← mul_one (r.coeff v).natAbs, ← hev, ← Int.natAbs_mul] at hle
  have hproduct (d : Int) {B : Nat} (hd : d.natAbs ≤ B) :
      (r.coeff v * e.coeff v * d).natAbs ≤ g.natAbs * B := by
    rw [Int.natAbs_mul]
    exact Nat.mul_le_mul hfactor hd
  have hgW : g.natAbs * W ≤ G * W := Nat.mul_le_mul_right _ hG
  have hpos : 1 ≤ W := hwv ▸ hW v (hh.lt_of_unit hunit)
  have hg1 : g.natAbs ≤ g.natAbs * W := Nat.le_mul_of_pos_right _ hpos
  have hgD : g.natAbs * (2 * D + C) ≤ G * (2 * D + C) := Nat.mul_le_mul_right _ hG
  have hrhs' := hproduct e.rhs hhe
  have hnew : (r.rhs - r.coeff v * e.coeff v * e.rhs).natAbs ≤ C + g.natAbs * (2 * D + C) := calc
    _ ≤ r.rhs.natAbs + (r.coeff v * e.coeff v * e.rhs).natAbs := Int.natAbs_sub_le ..
    _ ≤ C + g.natAbs * D + g.natAbs * (C + D) := Nat.add_le_add hgr hrhs'
    _ = C + g.natAbs * (2 * D + C) := by ring
  have hpart : g.natAbs * (C + D) ≤ g.natAbs * (2 * D + C) :=
    Nat.mul_le_mul_left _ (by omega)
  obtain ⟨s, hs⟩ := exists_substitute (e := e) (v := v) (r := r)
    (Word.fits_of_natAbs (by omega))
    (fun q hq => by
      obtain ⟨hq₁, hq₂⟩ := List.of_mem_zip hq
      have h₁ := natAbs_le_of_mem_weighted hg hW hq₁
      have h₂ := hproduct q.2 (natAbs_le_of_mem_weighted hh hW hq₂)
      rw [hone, one_mul] at h₂
      have h₃ := Int.natAbs_sub_le q.1 (r.coeff v * e.coeff v * q.2)
      exact ⟨Word.fits_of_natAbs (by omega), Word.fits_of_natAbs (by omega)⟩)
    ⟨Word.fits_of_natAbs (by omega), Word.fits_of_natAbs (by omega)⟩
  refine ⟨s, hs, g, isWeighted_of_substitute hh hg hunit hs, hG, ?_⟩
  rw [(substitute?_spec hs (hg.length.trans hh.length.symm)).2.2]
  exact hnew

end Row

namespace ConstraintSystem

variable {w : Nat → Int} {ω : Int} {n G C D W : Nat} {es rs : List Row}

/-- A bound on one unknown that is worth `ω`, which is not one. -/
structure Lone (w : Nat → Int) (ω : Int) (n C : Nat) (r : Row) : Prop where
  isDifference : r.IsDifference n
  worth : ∀ v, r.coeff v ≠ 0 → w v = ω
  ne_one : ω.natAbs ≠ 1
  rhs : r.rhs.natAbs ≤ C

/-- An equation that mentions the unknown with a unit coefficient, and no other one worth one. -/
def Anchored (w : Nat → Int) (es : List Row) (u : Nat) : Prop :=
  ∃ e ∈ es, (e.coeff u).natAbs = 1 ∧ ∀ v, v ≠ u → (w v).natAbs = 1 → e.coeff v = 0

/-- Equations and rows that compare what unknowns are worth. All unknowns are worth `ω`, but for
those that an equation can be solved for or that nothing mentions. -/
structure Balanced (w : Nat → Int) (ω : Int) (n G C D : Nat) (es rs : List Row) : Prop where
  equations : ∀ e ∈ es, e.Weighs w n G C D
  rows : ∀ r ∈ rs, r.Weighs w n G C D ∨ Lone w ω n C r
  unknowns : ∀ u < n, w u = ω ∨ (∀ r ∈ es ++ rs, r.coeff u = 0) ∨ Anchored w es u

theorem Balanced.length (h : Balanced w ω n G C D es rs) :
    ∀ r ∈ es ++ rs, r.coeffs.length = n := by
  intro r hr
  obtain hr | hr := List.mem_append.mp hr
  · obtain ⟨g, hg, -⟩ := h.equations r hr
    exact hg.length
  · obtain ⟨g, hg, -⟩ | hr := h.rows r hr
    · exact hg.length
    · exact hr.isDifference.isMultiple.length

/-- Solving one equation leaves a system of the same kind. -/
theorem Balanced.step (h : Balanced w ω n G C D es rs) (hW : ∀ u < n, (w u).natAbs ≤ W)
    (hGW : 2 * (G * W) ≤ 9223372036854775807)
    (hrhs : C + G * (2 * D + C) ≤ 9223372036854775807) {j v : Nat} {e : Row}
    (hs : solvable es = .ok (some (j, e, v))) :
    ∃ es₁ rs₁, List.Forall₂ (fun r s => Row.substitute? e v r = some s) (swapRemove j es) es₁ ∧
      List.Forall₂ (fun r s => Row.substitute? e v r = some s) rs rs₁ ∧
        Balanced w ω n G C (2 * D + C) es₁ rs₁ := by
  obtain ⟨hj, hunit⟩ := solvable_spec hs
  have hmem : e ∈ es := List.mem_of_getElem? hj
  have hwe := h.equations e hmem
  obtain ⟨k, hk, -⟩ := id hwe
  obtain ⟨hwv, -⟩ := Row.natAbs_eq_one_of_unit hk hunit
  have hsub (r : Row) (hr : r.Weighs w n G C D) := hr.substitute hwe hunit hW hGW hrhs
  have hlone (r : Row) (hr : Lone w ω n C r) : r.coeff v = 0 := by
    by_contra hne
    exact hr.ne_one (hr.worth v hne ▸ hwv)
  have hes (r : Row) (hr : r ∈ swapRemove j es) : r.Weighs w n G C D :=
    h.equations r (mem_of_mem_swapRemove hr)
  have hes' : ∀ r ∈ swapRemove j es, ∃ s, Row.substitute? e v r = some s := by
    intro r hr
    obtain ⟨s, hs, -⟩ := hsub r (hes r hr)
    exact ⟨s, hs⟩
  have hrs' : ∀ r ∈ rs, ∃ s, Row.substitute? e v r = some s := by
    intro r hr
    obtain hr | hr := h.rows r hr
    · obtain ⟨s, hs, -⟩ := hsub r hr
      exact ⟨s, hs⟩
    · exact ⟨r, Row.substitute?_of_coeff_zero e (hlone r hr)⟩
  obtain ⟨es₁, hes₁⟩ := exists_forall₂ hes'
  obtain ⟨rs₁, hrs₁⟩ := exists_forall₂ hrs'
  refine ⟨es₁, rs₁, hes₁, hrs₁, fun s hs => ?_, fun s hs => ?_, fun u hu => ?_⟩
  · obtain ⟨r, hr, hrs⟩ := exists_of_mem_right hes₁ hs
    obtain ⟨t, ht, hweighs⟩ := hsub r (hes r hr)
    rwa [Option.some.inj (hrs.symm.trans ht)]
  · obtain ⟨r, hr, hrs⟩ := exists_of_mem_right hrs₁ hs
    obtain hr | hr := h.rows r hr
    · obtain ⟨t, ht, hweighs⟩ := hsub r hr
      exact Or.inl (by rwa [Option.some.inj (hrs.symm.trans ht)])
    · rw [Row.substitute?_of_coeff_zero e (hlone r hr)] at hrs
      exact Or.inr (Option.some.inj hrs ▸ hr)
  · have hfrom : ∀ s ∈ es₁ ++ rs₁, ∃ r ∈ es ++ rs, Row.substitute? e v r = some s := by
      intro s hs
      obtain hs | hs := List.mem_append.mp hs
      · obtain ⟨r, hr, hrs⟩ := exists_of_mem_right hes₁ hs
        exact ⟨r, List.mem_append_left _ (mem_of_mem_swapRemove hr), hrs⟩
      · obtain ⟨r, hr, hrs⟩ := exists_of_mem_right hrs₁ hs
        exact ⟨r, List.mem_append_right _ hr, hrs⟩
    have hlen (r : Row) (hr : r ∈ es ++ rs) : r.coeffs.length = e.coeffs.length :=
      (h.length r hr).trans hk.length.symm
    obtain hω | hgone | ⟨a, ha, hone, hother⟩ := h.unknowns u hu
    · exact Or.inl hω
    · refine Or.inr (Or.inl fun s hs => ?_)
      obtain ⟨r, hr, hrs⟩ := hfrom s hs
      rw [(Row.substitute?_spec hrs (hlen r hr)).2.1 u, hgone r hr,
        hgone e (List.mem_append_left _ hmem), mul_zero, sub_zero]
    · by_cases huv : v = u
      · subst huv
        refine Or.inr (Or.inl fun s hs => ?_)
        obtain ⟨r, hr, hrs⟩ := hfrom s hs
        exact Row.coeff_of_substitute hrs (hlen r hr) hunit
      · -- the equation of another unknown does not mention the one that is solved for
        have hav := hother v huv hwv
        obtain rfl | ha' := mem_swapRemove_of_mem hj ha
        · rw [hav] at hunit
          cases hunit
        · obtain ⟨s, hs, hsa⟩ := exists_of_mem_left hes₁ ha'
          rw [Row.substitute?_of_coeff_zero e hav] at hsa
          exact Or.inr (Or.inr ⟨a, Option.some.inj hsa ▸ hs, hone, hother⟩)

theorem length_swapRemove {α : Type} {k : Nat} {xs : List α} :
    (swapRemove k xs).length = xs.length - 1 := by
  rw [swapRemove]
  split
  · next hnone => simp [List.getLast?_eq_none_iff.mp hnone]
  · simp

theorem Balanced.exists_solvable (h : Balanced w ω n G C D es rs)
    (hW : ∀ u < n, (w u).natAbs ≤ W) (hGW : 2 * (G * W) ≤ 9223372036854775807) :
    ∃ o, solvable es = .ok o := by
  refine exists_findSomeM?_eq_ok fun q hq => ?_
  have hmem : q.1 ∈ es := List.mem_of_getElem? (List.mem_zipIdx_iff_getElem?.mp hq)
  obtain ⟨g, hg, hG, -⟩ := h.equations q.1 hmem
  obtain ⟨o, ho⟩ : ∃ o, q.1.unitUnknown = .ok o := by
    refine exists_findSomeM?_eq_ok fun c hc => ?_
    have hle := Row.natAbs_le_of_mem_weighted hg hW
      (List.mem_of_getElem? (List.mem_zipIdx_iff_getElem?.mp hc))
    have hGW' := Nat.mul_le_mul_right W hG
    have hfits : Word.Fits c.1.natAbs := by
      unfold Word.Fits
      omega
    exact ⟨_, bind_eq_ok.mpr ⟨_, Word.abs_eq_ok.mpr ⟨hfits, rfl⟩, rfl⟩⟩
  exact ⟨_, bind_eq_ok.mpr ⟨o, ho, rfl⟩⟩

theorem Balanced.solveUnits {k : Nat} (h : Balanced w ω n G C D es rs)
    (hW : ∀ u < n, (w u).natAbs ≤ W) (hGW : 2 * (G * W) ≤ 9223372036854775807)
    (hrhs : C + G * (2 ^ k * (C + D)) ≤ 9223372036854775807) (hk : es.length ≤ k) :
    ∃ es' rs', ConstraintSystem.solveUnits k es rs = .ok (es', rs') ∧ es'.length ≤ es.length ∧
      rs'.length = rs.length ∧ solvable es' = .ok none ∧
      Balanced w ω n G C (2 ^ k * (C + D)) es' rs' := by
  induction k generalizing es rs D with
  | zero =>
    obtain rfl : es = [] := List.length_eq_zero_iff.mp (Nat.le_zero.mp hk)
    refine ⟨[], rs, rfl, le_rfl, rfl, rfl, List.forall_mem_nil _, fun r hr => ?_, h.unknowns⟩
    exact (h.rows r hr).imp_left fun hr => hr.mono (by omega)
  | succ k ih =>
    have hpow : 2 ^ k * (C + (2 * D + C)) = 2 ^ (k + 1) * (C + D) := by ring
    obtain ⟨_ | ⟨j, e, v⟩, hs⟩ := h.exists_solvable hW hGW
    · have hD : D ≤ 2 ^ (k + 1) * (C + D) :=
        (Nat.le_add_left D C).trans (Nat.le_mul_of_pos_left _ (by positivity))
      exact ⟨es, rs, solveUnits_succ.mpr (Or.inl ⟨hs, rfl, rfl⟩), le_rfl, rfl, hs,
        fun e he => (h.equations e he).mono hD,
        fun r hr => (h.rows r hr).imp_left fun hr => hr.mono hD, h.unknowns⟩
    · have hstep : C + G * (2 * D + C) ≤ 9223372036854775807 := by
        refine le_trans (Nat.add_le_add_left (Nat.mul_le_mul_left _ ?_) _) hrhs
        rw [← hpow]
        exact (Nat.le_add_left _ C).trans (Nat.le_mul_of_pos_left _ (by positivity))
      obtain ⟨es₁, rs₁, hes₁, hrs₁, hbal⟩ := h.step hW hGW hstep hs
      have hlen₁ := hes₁.length_eq
      rw [length_swapRemove] at hlen₁
      obtain ⟨es', rs', hsolve, hle, hrows, hnone, hbal'⟩ :=
        ih hbal (hpow ▸ hrhs) (by omega)
      exact ⟨es', rs', solveUnits_succ.mpr (Or.inr ⟨j, e, v, es₁, rs₁, hs, hes₁, hrs₁, hsolve⟩),
        by omega, hrows.trans hrs₁.length_eq.symm, hnone, hpow ▸ hbal'⟩

theorem natAbs_coeff_ne_one {e : Row} (hs : solvable es = .ok none) (he : e ∈ es) (u : Nat) :
    (e.coeff u).natAbs ≠ 1 := by
  intro hone
  have hu : u < e.coeffs.length := by
    by_contra hu
    rw [Row.coeff_of_length_le (not_lt.mp hu)] at hone
    cases hone
  obtain ⟨j, hj, rfl⟩ := List.getElem_of_mem he
  have hnone := findSomeM?_eq_ok_none.mp hs (es[j], j) (by simp [List.mem_zipIdx_iff_getElem?])
  obtain ⟨o, ho, hnone⟩ := bind_eq_ok.mp hnone
  obtain rfl := Option.map_eq_none_iff.mp (pure_eq_ok.mp hnone)
  have hne := findSomeM?_eq_ok_none.mp ho (es[j].coeffs[u], u)
    (by simp [List.mem_zipIdx_iff_getElem?])
  obtain ⟨a, ha, hne⟩ := bind_eq_ok.mp hne
  obtain ⟨-, rfl⟩ := Word.abs_eq_ok.mp ha
  rw [Row.coeff, List.getD_eq_getElem _ _ hu] at hone
  simp [hone, pure, Except.pure] at hne

/-- When no equation can be solved, every unknown that is mentioned is worth `ω`. -/
theorem Balanced.worth (h : Balanced w ω n G C D es rs) (hs : solvable es = .ok none) {r : Row}
    (hr : r ∈ es ++ rs) {u : Nat} (hu : r.coeff u ≠ 0) : u < n ∧ w u = ω := by
  have hun : u < n := by
    by_contra hun
    exact hu (Row.coeff_of_length_le (h.length r hr ▸ not_lt.mp hun))
  refine ⟨hun, ?_⟩
  obtain hω | hgone | ⟨e, he, hone, -⟩ := h.unknowns u hun
  · exact hω
  · exact absurd (hgone r hr) hu
  · exact absurd hone (natAbs_coeff_ne_one hs he u)

theorem isMultiple_of_weighted {r : Row} {g : Int} (hr : r.IsWeighted w n g)
    (hworth : ∀ u, r.coeff u ≠ 0 → w u = ω) : r.IsMultiple n := by
  have hlen := hr.length
  obtain ⟨a, b, hr⟩ := hr
  refine ⟨g * ω, if w a = ω then a else n, if w b = ω then b else n,
    Row.ext_getD (by simp [hlen, Row.length_difference]) fun u hu => ?_⟩
  rw [hlen] at hu
  have hmap : ((difference n (if w a = ω then a else n) (if w b = ω then b else n)).map
      (g * ω * ·)).getD u 0 = g * ω * (difference n (if w a = ω then a else n)
        (if w b = ω then b else n)).getD u 0 := by
    rw [← mul_zero (g * ω), List.getD_map, mul_zero]
  change r.coeff u = _
  rw [hmap, Row.getD_difference, if_pos hu]
  by_cases hω : w u = ω
  · rw [Row.coeff_of_weighted hr, if_pos hu, hω]
    grind
  · -- what is not worth `ω` is not mentioned
    have hzero : r.coeff u = 0 := by
      by_contra hne
      exact hω (hworth u hne)
    rw [hzero]
    grind

theorem Balanced.multiples (h : Balanced w ω n G C D es rs) (hs : solvable es = .ok none)
    (hW : ∀ u < n, (w u).natAbs ≤ W) (hGW : 2 * (G * W) ≤ 9223372036854775807) :
    Multiples n (C + G * D) (es ++ rs) := by
  intro r hr
  have hworth (u : Nat) (hu : r.coeff u ≠ 0) : w u = ω := (h.worth hs hr hu).2
  have hweighs : r.Weighs w n G C D ∨ Lone w ω n C r := by
    obtain hr | hr := List.mem_append.mp hr
    · exact Or.inl (h.equations r hr)
    · exact h.rows r hr
  obtain ⟨g, hg, hG, hrhs⟩ | hr := hweighs
  · refine ⟨isMultiple_of_weighted hg hworth, fun c hc => ?_,
      hrhs.trans (Nat.add_le_add_left (Nat.mul_le_mul_right _ hG) _)⟩
    have hle := (Row.natAbs_le_of_mem_weighted hg hW hc).trans (Nat.mul_le_mul_right W hG)
    omega
  · refine ⟨hr.isDifference.isMultiple, fun c hc => ?_, hr.rhs.trans (Nat.le_add_right _ _)⟩
    exact (Row.natAbs_le_of_mem hr.isDifference hc).trans (by decide)

/-- The answer is right for systems that compare what unknowns are worth, if a few of them are
worth `ω`: the system is infeasible or has an integer point. -/
theorem Balanced.infeasible_or_satisfies {s : ConstraintSystem}
    (h : Balanced w ω s.vars G C 0 s.equations s.rows) (hW : ∀ u < s.vars, (w u).natAbs ≤ W)
    (hGW : 2 * (G * W) ≤ 9223372036854775807)
    (hcard : ((Finset.range s.vars).filter (w · = ω)).card ≤ 3)
    (hlen : 2 * s.equations.length + s.rows.length ≤
      capacity ((Finset.range s.vars).filter (w · = ω)).card)
    (hR : 8 * (C + G * (2 ^ s.equations.length * C)) ≤ 9223372036854775807) :
    s.feasibility = .ok .infeasible ∨ s.feasibility = .ok .feasible ∧ ∃ x, s.Satisfies x := by
  obtain ⟨es, rs, hsolve, hes, hrs, hnone, hbal⟩ := h.solveUnits hW hGW
    (by rw [Nat.add_zero]; omega) le_rfl
  have hmul := hbal.multiples hnone hW hGW
  refine ConstraintSystem.infeasible_or_satisfies ((Finset.range s.vars).filter (w · = ω)) hsolve
    (fun r hr => hmul r (List.mem_append_left _ hr))
    (fun r hr => hmul r (List.mem_append_right _ hr)) (fun r hr u hu => ?_) ?_ hcard (by omega) ?_
  · obtain ⟨hun, hω⟩ := hbal.worth hnone hr hu
    exact Finset.mem_filter.mpr ⟨Finset.mem_range.mpr hun, hω⟩
  · exact (Finset.card_filter_le _ _).trans (Finset.card_range _).le
  · refine le_trans (Nat.mul_le_mul_right _ (Nat.pow_le_pow_right (by decide) hcard)) ?_
    rwa [Nat.add_zero]

end ConstraintSystem

end LoopLegality

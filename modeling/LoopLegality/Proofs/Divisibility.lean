import LoopLegality.Proofs.Differences
import LoopLegality.Proofs.Exact

namespace LoopLegality

namespace Row

variable {r : Row}

theorem dvd_content {d : Nat} (h : ∀ c ∈ r.coeffs, (d : Int) ∣ c) : d ∣ r.content :=
  dvd_gcd_fold h (dvd_zero d)

theorem content_eq_gcd (r : Row) : (r.content : Int) = Multiset.gcd (r.coeffs : Multiset Int) := by
  apply Int.dvd_antisymm (Int.natCast_nonneg _)
  · exact Int.nonneg_of_normalize_eq_self (Multiset.normalize_gcd _)
  · exact Multiset.dvd_gcd.mpr fun c hc => content_dvd hc
  · rw [← Int.natAbs_dvd, Int.natCast_dvd_natCast]
    exact dvd_content fun c hc => Int.natAbs_dvd.mpr (Multiset.gcd_dvd hc)

theorem dotFrom_congr {x y : Nat → Int} {v : Nat} (cs : List Int) (h : ∀ w, v ≤ w → x w = y w) :
    dotFrom x v cs = dotFrom y v cs := by
  rw [dotFrom_eq_sum, dotFrom_eq_sum]
  exact Finset.sum_congr rfl fun w _ => by rw [h _ (Nat.le_add_right v w)]

theorem dotFrom_mul (k : Int) (x : Nat → Int) (v : Nat) (cs : List Int) :
    dotFrom (fun w => k * x w) v cs = k * dotFrom x v cs := by
  rw [dotFrom_eq_sum, dotFrom_eq_sum, Finset.mul_sum]
  exact Finset.sum_congr rfl fun w _ => by ring

theorem exists_dotFrom_eq_fold (cs : List Int) (g v : Nat) :
    ∃ (a : Int) (x : Nat → Int),
      ((cs.foldl (fun g c => Nat.gcd g c.natAbs) g : Nat) : Int) = a * g + dotFrom x v cs := by
  induction cs generalizing g v with
  | nil => exact ⟨1, 0, by simp [dotFrom]⟩
  | cons c cs ih =>
    obtain ⟨a, x, hx⟩ := ih (Nat.gcd g c.natAbs) (v + 1)
    have hgcd := Nat.gcd_eq_gcd_ab g c.natAbs
    rw [← Int.sign_mul_self_eq_natAbs] at hgcd
    let b := a * c.sign * g.gcdB c.natAbs
    have hrest : dotFrom (Function.update x v b) (v + 1) cs = dotFrom x (v + 1) cs :=
      dotFrom_congr cs fun w hw => Function.update_of_ne (by omega) _ _
    refine ⟨a * g.gcdA c.natAbs, Function.update x v b, ?_⟩
    rw [List.foldl_cons, hx, hgcd, dotFrom, hrest, Function.update_self]
    ring

theorem exists_value_eq_content (r : Row) : ∃ x, r.value x = r.content := by
  obtain ⟨a, x, hx⟩ := exists_dotFrom_eq_fold r.coeffs 0 0
  exact ⟨x, by simpa [content, value] using hx.symm⟩

theorem exists_solves_iff_dvd (r : Row) : (∃ x, r.Solves x) ↔ (r.content : Int) ∣ r.rhs := by
  constructor
  · rintro ⟨x, hx⟩
    exact hx ▸ dvd_dotFrom x 0 fun _ => content_dvd
  · rintro ⟨k, hk⟩
    obtain ⟨x, hx⟩ := exists_value_eq_content r
    refine ⟨fun v => k * x v, ?_⟩
    rw [Solves, value, dotFrom_mul, ← value, hx, hk, mul_comm]

/-- An equation over words other than the least one is tested without overflow, and passes exactly
if integers solve it. -/
theorem gcdTest_iff_exists_solves {r : Row}
    (h : ∀ c ∈ r.coeffs, Word.Fits c ∧ c ≠ -9223372036854775808) :
    ∃ b, r.gcdTest = .ok b ∧ (b = true ↔ ∃ x, r.Solves x) := by
  have hsize (c : Int) (hc : c ∈ r.coeffs) : c.natAbs ≤ 9223372036854775807 := by
    obtain ⟨hfits, hne⟩ := h c hc
    unfold Word.Fits at hfits
    omega
  obtain ⟨b, hb⟩ := exists_gcdTest hsize
  exact ⟨b, hb, (gcdTest_eq_ok hb).trans r.exists_solves_iff_dvd.symm⟩

/-- Ten and fifteen combine to five, and to nothing that five does not divide. -/
theorem gcdTest_ten_fifteen :
    (∃ x, Solves ⟨[10, 0, -15], -5⟩ x) ∧ ¬ ∃ x, Solves ⟨[10, 0, -15], 7⟩ x := by
  have hcoeffs : ∀ c ∈ [10, 0, -15], Word.Fits c ∧ c ≠ -9223372036854775808 := by decide
  obtain ⟨b, hb, hyes⟩ := gcdTest_iff_exists_solves (r := ⟨[10, 0, -15], -5⟩) hcoeffs
  obtain ⟨b', hb', hno⟩ := gcdTest_iff_exists_solves (r := ⟨[10, 0, -15], 7⟩) hcoeffs
  cases hb
  cases hb'
  exact ⟨hyes.mp rfl, fun hx => Bool.false_ne_true (hno.mpr hx)⟩

end Row

namespace RatRow

variable {r : Row}

theorem reduce_of_content_le (h : r.content ≤ 1) : reduce r = r := by
  rw [reduce, divideBy]
  exact if_neg (Nat.not_lt.mpr h)

theorem reduce_of_lt_content (h : 1 < r.content) :
    reduce r = ⟨r.coeffs.map (· / (r.content : Int)), r.rhs / r.content⟩ :=
  if_pos h

theorem content_reduce (r : Row) : (reduce r).content ≤ 1 := by
  by_cases hg : r.content ≤ 1
  · rwa [reduce_of_content_le hg]
  · have hlt : 1 < r.content := Nat.lt_of_not_le hg
    have hmul : r.content * (reduce r).content ∣ r.content := by
      refine Row.dvd_content fun c hc => ?_
      have hquot : c / (r.content : Int) ∈ (reduce r).coeffs := by
        rw [reduce_of_lt_content hlt]
        exact List.mem_map_of_mem hc
      rw [← Int.mul_ediv_cancel' (Row.content_dvd hc), Nat.cast_mul]
      exact mul_dvd_mul_left _ (Row.content_dvd hquot)
    have hone : (reduce r).content ∣ 1 :=
      Nat.dvd_of_mul_dvd_mul_left (Nat.lt_of_succ_lt hlt) (by simpa using hmul)
    exact Nat.le_of_dvd Nat.one_pos hone

theorem fits_reduce (h : ∀ c ∈ r.coeffs, Word.Fits c) (hb : Word.Fits r.rhs) :
    (∀ c ∈ (reduce r).coeffs, Word.Fits c) ∧ Word.Fits (reduce r).rhs := by
  by_cases hg : r.content ≤ 1
  · rw [reduce_of_content_le hg]
    exact ⟨h, hb⟩
  · have hpos : (0 : Int) < r.content := by omega
    rw [reduce_of_lt_content (Nat.lt_of_not_le hg)]
    refine ⟨fun c hc => ?_, Word.fits_ediv hb hpos⟩
    obtain ⟨d, hd, rfl⟩ := List.mem_map.mp hc
    exact Word.fits_ediv (h d hd) hpos

theorem fits_of_tighten {r : RatRow} {s : Row} (h : r.tighten = .ok s) :
    (∀ c ∈ s.coeffs, Word.Fits c) ∧ Word.Fits s.rhs := by
  obtain ⟨t, rfl, hcs, hb, -⟩ := tighten_eq_ok h
  have hfits {q : Rat} {n : Int} (hn : scaled? r.denominator q = some n) : Word.Fits n := by
    obtain ⟨hfit, rfl⟩ := Word.fit?_eq_some.mp hn
    exact hfit
  refine fits_reduce (fun c hc => ?_) (hfits hb)
  obtain ⟨q, -, hq⟩ := exists_of_mem_right (mapM_eq_some.mp hcs) hc
  exact hfits hq

theorem exists_foldlM_gcd_map_div {g : Nat} {cs : List Int} {a m : Nat} (ha : g ∣ a)
    (hcs : ∀ c ∈ cs, (g : Int) ∣ c) (h : cs.foldlM Word.gcd a = .ok m) :
    ∃ k, (cs.map (· / (g : Int))).foldlM Word.gcd (a / g) = .ok k := by
  induction cs generalizing a with
  | nil => exact ⟨a / g, rfl⟩
  | cons c cs ih =>
    rw [List.forall_mem_cons] at hcs
    obtain ⟨hc, hcs⟩ := hcs
    rw [List.foldlM_cons] at h
    obtain ⟨b, hb, h⟩ := bind_eq_ok.mp h
    obtain ⟨hfits, rfl⟩ := Word.gcd_eq_ok.mp hb
    have hc' : g ∣ c.natAbs := Int.natCast_dvd.mp hc
    have hquot : Nat.gcd (a / g) (c / (g : Int)).natAbs = Nat.gcd a c.natAbs / g := by
      rw [Int.natAbs_ediv_of_dvd hc, Int.natAbs_natCast, Nat.gcd_div ha hc']
    obtain ⟨k, hk⟩ := ih (Nat.dvd_gcd ha hc') hcs h
    refine ⟨k, ?_⟩
    rw [List.map_cons, List.foldlM_cons]
    refine bind_eq_ok.mpr ⟨_, Word.gcd_eq_ok.mpr ⟨?_, hquot⟩, hk⟩
    have hle : Nat.gcd a c.natAbs / g ≤ Nat.gcd a c.natAbs := Nat.div_le_self _ _
    rw [hquot]
    unfold Word.Fits at *
    omega

theorem exists_foldlM_gcd_reduce {m : Nat} (h : r.coeffs.foldlM Word.gcd 0 = .ok m) :
    ∃ k, (reduce r).coeffs.foldlM Word.gcd 0 = .ok k := by
  by_cases hg : r.content ≤ 1
  · rw [reduce_of_content_le hg]
    exact ⟨m, h⟩
  · rw [reduce_of_lt_content (Nat.lt_of_not_le hg)]
    simpa using exists_foldlM_gcd_map_div (dvd_zero _) (fun _ => Row.content_dvd) h

/-- A tightened row has the integer points of the row it comes from, its coefficients have no
common factor but one unless they all are zero, and there is nothing more to tighten. -/
theorem primitive_of_tighten {r : RatRow} {s : Row} (h : r.tighten = .ok s) :
    (∀ x : Nat → Int, s.Holds x ↔ r.Holds fun v => x v) ∧
      (Multiset.gcd (s.coeffs : Multiset Int) = 0 ∨ Multiset.gcd (s.coeffs : Multiset Int) = 1) ∧
      (ofRow s).tighten = .ok s := by
  obtain ⟨hcoeffs, hrhs⟩ := fits_of_tighten h
  obtain ⟨t, hs, -, -, hfold⟩ := tighten_eq_ok h
  have hcontent : s.content ≤ 1 := hs ▸ content_reduce t
  refine ⟨holds_tighten h, ?_, ?_⟩
  · rw [← Row.content_eq_gcd]
    omega
  · obtain ⟨k, hk⟩ := exists_foldlM_gcd_reduce hfold
    rw [← hs] at hk
    rw [tighten_ofRow hcoeffs hrhs hk, reduce_of_content_le hcontent]

/-- The right side alone has a denominator to clear here, and is negative when it is rounded. -/
theorem primitive_of_tighten_halves :
    (⟨[4, -6], -7 / 2⟩ : RatRow).tighten = .ok ⟨[2, -3], -2⟩ ∧
      (∀ x : Nat → Int, Row.Holds ⟨[2, -3], -2⟩ x ↔ Holds ⟨[4, -6], -7 / 2⟩ fun v => x v) ∧
      (Multiset.gcd (([2, -3] : List Int) : Multiset Int) = 0 ∨
        Multiset.gcd (([2, -3] : List Int) : Multiset Int) = 1) ∧
      (ofRow ⟨[2, -3], -2⟩).tighten = .ok ⟨[2, -3], -2⟩ :=
  have h : (⟨[4, -6], -7 / 2⟩ : RatRow).tighten = .ok ⟨[2, -3], -2⟩ := by cbv
  ⟨h, primitive_of_tighten h⟩

end RatRow

end LoopLegality

import LoopLegality.Constraint.Feasibility
import LoopLegality.Proofs.Results
import Mathlib

namespace LoopLegality

namespace Row

/-- A point satisfies the inequality of a row. -/
def Holds (r : Row) (x : Nat → Int) : Prop := r.value x ≤ r.rhs

def Solves (r : Row) (x : Nat → Int) : Prop := r.value x = r.rhs

theorem dotFrom_append (x : Nat → Int) (v : Nat) (as bs : List Int) :
    dotFrom x v (as ++ bs) = dotFrom x v as + dotFrom x (v + as.length) bs := by
  induction as generalizing v with
  | nil => simp [dotFrom]
  | cons a as ih =>
    have hv : v + 1 + as.length = v + (as.length + 1) := by omega
    simp only [List.cons_append, dotFrom, ih, List.length_cons, hv]
    ring

theorem dotFrom_range (x : Nat → Int) (n : Nat) (f : Nat → Int) :
    dotFrom x 0 ((List.range n).map f) = ∑ v ∈ Finset.range n, f v * x v := by
  induction n with
  | zero => rfl
  | succ n ih =>
    rw [List.range_succ, List.map_append, dotFrom_append, ih, Finset.sum_range_succ]
    simp [dotFrom]

theorem dotFrom_eq_sum (x : Nat → Int) (k : Nat) (cs : List Int) :
    dotFrom x k cs = ∑ v ∈ Finset.range cs.length, cs.getD v 0 * x (k + v) := by
  induction cs generalizing k with
  | nil => simp [dotFrom]
  | cons c cs ih =>
    rw [dotFrom, ih, List.length_cons, Finset.sum_range_succ', add_comm]
    simp only [List.getD_cons_succ, List.getD_cons_zero, Nat.add_zero, Nat.add_assoc,
      Nat.add_comm 1]

theorem value_eq_sum (r : Row) (x : Nat → Int) :
    r.value x = ∑ v ∈ Finset.range r.coeffs.length, r.coeff v * x v := by
  simp [value, dotFrom_eq_sum, coeff]

theorem dvd_dotFrom {g : Int} (x : Nat → Int) (v : Nat) {cs : List Int} (h : ∀ c ∈ cs, g ∣ c) :
    g ∣ dotFrom x v cs := by
  induction cs generalizing v with
  | nil => exact dvd_zero g
  | cons c cs ih =>
    have hc : g ∣ c := h c List.mem_cons_self
    have ht := ih (v + 1) fun c hc => h c (List.mem_cons_of_mem _ hc)
    exact Int.dvd_add (hc.mul_right _) ht

theorem gcd_fold_dvd (cs : List Int) (g : Nat) :
    cs.foldl (fun g c => Nat.gcd g c.natAbs) g ∣ g ∧
      ∀ c ∈ cs, ((cs.foldl (fun g c => Nat.gcd g c.natAbs) g : Nat) : Int) ∣ c := by
  induction cs generalizing g with
  | nil => simp
  | cons c cs ih =>
    obtain ⟨hg, hcs⟩ := ih (Nat.gcd g c.natAbs)
    refine ⟨hg.trans (Nat.gcd_dvd_left _ _), fun d hd => ?_⟩
    obtain rfl | hd := List.mem_cons.mp hd
    · exact Int.natCast_dvd.mpr (hg.trans (Nat.gcd_dvd_right _ _))
    · exact hcs d hd

/-- The greatest common divisor of the coefficients, zero if they all are. -/
def content (r : Row) : Nat := r.coeffs.foldl (fun g c => Nat.gcd g c.natAbs) 0

theorem content_dvd {r : Row} {c : Int} (hc : c ∈ r.coeffs) : (r.content : Int) ∣ c :=
  (gcd_fold_dvd r.coeffs 0).2 c hc

theorem foldlM_gcd {cs : List Int} {g m : Nat} (h : cs.foldlM Word.gcd g = .ok m) :
    cs.foldl (fun g c => Nat.gcd g c.natAbs) g = m := by
  induction cs generalizing g with
  | nil => exact pure_eq_ok.mp h
  | cons c cs ih =>
    rw [List.foldlM_cons] at h
    obtain ⟨d, hd, h⟩ := bind_eq_ok.mp h
    obtain ⟨-, rfl⟩ := Word.gcd_eq_ok.mp hd
    exact ih h

theorem exists_foldlM_gcd {cs : List Int} {g : Nat} (h : ∀ c ∈ cs, c.natAbs ≤ 9223372036854775807)
    (hg : g ≤ 9223372036854775807) : ∃ m, cs.foldlM Word.gcd g = .ok m := by
  induction cs generalizing g with
  | nil => exact ⟨g, rfl⟩
  | cons c cs ih =>
    rw [List.forall_mem_cons] at h
    have hle : Nat.gcd g c.natAbs ≤ 9223372036854775807 := by
      obtain rfl | hpos := Nat.eq_zero_or_pos g
      · rw [Nat.gcd_zero_left]
        exact h.1
      · exact (Nat.gcd_le_left _ hpos).trans hg
    have hfits : Word.Fits (Nat.gcd g c.natAbs) := by
      unfold Word.Fits
      omega
    obtain ⟨m, hm⟩ := ih h.2 hle
    exact ⟨m, bind_eq_ok.mpr ⟨_, Word.gcd_eq_ok.mpr ⟨hfits, rfl⟩, hm⟩⟩

theorem exists_gcdTest {r : Row} (h : ∀ c ∈ r.coeffs, c.natAbs ≤ 9223372036854775807) :
    ∃ b, r.gcdTest = .ok b := by
  obtain ⟨g, hg⟩ := exists_foldlM_gcd h (Nat.zero_le _)
  exact ⟨_, bind_eq_ok.mpr ⟨g, hg, rfl⟩⟩

theorem gcdTest_eq_ok {r : Row} {b : Bool} (h : r.gcdTest = .ok b) :
    b = true ↔ (r.content : Int) ∣ r.rhs := by
  obtain ⟨g, hg, h⟩ := bind_eq_ok.mp h
  obtain rfl := foldlM_gcd hg
  obtain rfl := pure_eq_ok.mp h
  change (if r.content = 0 then decide (r.rhs = 0) else decide (r.rhs % r.content = 0)) = true ↔ _
  by_cases hzero : r.content = 0
  · simp [hzero]
  · rw [if_neg hzero, decide_eq_true_eq, Int.dvd_iff_emod_eq_zero]

theorem gcdTest_of_solves {r : Row} {x : Nat → Int} {b : Bool} (h : r.Solves x)
    (hb : r.gcdTest = .ok b) : b = true :=
  (gcdTest_eq_ok hb).mpr (h ▸ dvd_dotFrom x 0 fun _ => content_dvd)

end Row

end LoopLegality

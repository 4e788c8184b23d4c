import LoopLegality.Proofs.Exhaustive
import LoopLegality.Proofs.Problem
import LoopLegality.Proofs.Weighted

namespace LoopLegality

open DependenceProblem (difference restrict)

theorem Terms.getD_dense (t : Terms) (n v : Nat) :
    (t.dense n).getD v 0 = if v < n then (t.get? v).getD 0 else 0 := by
  by_cases hv : v < n <;> simp [dense, hv]

theorem Terms.length_dense (t : Terms) (n : Nat) : (t.dense n).length = n := by simp [dense]

namespace ConstraintSystem

variable {s : ConstraintSystem} {rs : List Row}

theorem addAllLe_spec (h : ∀ r ∈ rs, r.coeffs.length = s.vars) :
    (s.addAllLe rs).vars = s.vars ∧ (s.addAllLe rs).rows = s.rows ++ rs ∧
      (s.addAllLe rs).equations = s.equations := by
  induction rs generalizing s with
  | nil => simp [addAllLe]
  | cons r rs ih =>
    rw [List.forall_mem_cons] at h
    obtain ⟨hv, hr, he⟩ := ih (s := s.addLe r.coeffs r.rhs) h.2
    refine ⟨hv, hr.trans ?_, he⟩
    simp [addLe, pad_of_length h.1]

theorem addAllEq_spec (h : ∀ r ∈ rs, r.coeffs.length = s.vars) :
    (s.addAllEq rs).vars = s.vars ∧ (s.addAllEq rs).rows = s.rows ∧
      (s.addAllEq rs).equations = s.equations ++ rs := by
  induction rs generalizing s with
  | nil => simp [addAllEq]
  | cons r rs ih =>
    rw [List.forall_mem_cons] at h
    obtain ⟨hv, hr, he⟩ := ih (s := s.addEq r.coeffs r.rhs) h.2
    refine ⟨hv, hr, he.trans ?_⟩
    simp [addEq, pad_of_length h.1]

end ConstraintSystem

namespace Draft

def denseRow (n : Nat) (t : Terms × Int) : Row := ⟨t.1.dense n, -t.2⟩

theorem length_denseRow (n : Nat) (t : Terms × Int) : (denseRow n t).coeffs.length = n :=
  t.1.length_dense n

/-- A draft becomes a system with the same conditions if words can hold their constants. -/
theorem exists_system {d : Draft} (h : ∀ t ∈ d.le ++ d.eq, Word.Fits (-t.2)) :
    ∃ s, d.system? = some s ∧ s.vars = d.unknowns ∧ s.rows = d.le.map (denseRow d.unknowns) ∧
      s.equations = d.eq.map (denseRow d.unknowns) := by
  have hrow (t : Terms × Int) (ht : t ∈ d.le ++ d.eq) :
      row? d.unknowns t = some (denseRow d.unknowns t) := by
    simp [row?, denseRow, Word.neg?, Word.fit?_of_fits (h t ht)]
  have hle := mapM_eq_some.mpr (forall₂_map fun t ht => hrow t (List.mem_append_left _ ht))
  have heq := mapM_eq_some.mpr (forall₂_map fun t ht => hrow t (List.mem_append_right _ ht))
  have hlen (ts : List (Terms × Int)) :
      ∀ r ∈ ts.map (denseRow d.unknowns), r.coeffs.length = d.unknowns := by
    rw [List.forall_mem_map]
    exact fun t _ => length_denseRow _ t
  obtain ⟨hv₁, hr₁, he₁⟩ := ConstraintSystem.addAllLe_spec
    (s := ConstraintSystem.empty d.unknowns) (hlen d.le)
  obtain ⟨hv₂, hr₂, he₂⟩ := ConstraintSystem.addAllEq_spec
    fun r hr => (hlen d.eq r hr).trans hv₁.symm
  refine ⟨_, by rw [system?, hle, heq]; rfl, hv₂.trans hv₁, ?_, ?_⟩
  · rw [hr₂, hr₁]
    rfl
  · rw [he₂, he₁]
    rfl

end Draft

/-- A pair of subscripts `factor * i + c` in one loop over `i` from `lower` to `upper` by `step`.
The constants of the source and the sink differ by `gap`. -/
structure UniformPair where
  lower : Int
  upper : Int
  step : Int
  factor : Int
  gap : Int

namespace UniformPair

/-- The index at the source and at the sink, and how many steps lead to each of them. -/
def vars (u : UniformPair) : Nat := if u.step = 1 then 2 else 4

def boundLe (u : UniformPair) (x k : Nat) : List (Terms × Int) :=
  (IndexMap.empty.insert x (-1), u.lower) ::
    ((if u.step = 1 then [] else [(IndexMap.empty.insert k (-1), 0)]) ++
      [(IndexMap.empty.insert x 1, -u.upper)])

def boundEq (u : UniformPair) (x k : Nat) : List (Terms × Int) :=
  if u.step = 1 then [] else [((Terms.unit x).insert k (-u.step), -u.lower)]

def meeting (u : UniformPair) : Terms × Int :=
  (((IndexMap.empty.insert 0 u.factor).insert 1 (-u.factor)).filter fun _ c => c != 0, u.gap)

def draft (u : UniformPair) : Draft where
  unknowns := u.vars
  shared := .empty
  le := u.boundLe 0 2 ++ u.boundLe 1 3
  eq := u.boundEq 0 2 ++ u.boundEq 1 3 ++ [u.meeting]

/-- The values that the index takes. -/
def Reaches (u : UniformPair) (n : Int) : Prop := ∃ m : Nat, n = u.lower + u.step * m ∧ n ≤ u.upper

/-- All numbers are well inside a word. -/
structure Small (u : UniformPair) : Prop where
  lower : u.lower.natAbs ≤ 2 ^ 21
  upper : u.upper.natAbs ≤ 2 ^ 21
  step_pos : 1 ≤ u.step
  step : u.step ≤ 2 ^ 20
  factor : u.factor.natAbs ≤ 2 ^ 20
  gap : u.gap.natAbs ≤ 2 ^ 21

def weight (u : UniformPair) (v : Nat) : Int := if v < 2 then 1 else u.step

variable {u : UniformPair}

theorem two_le_vars (u : UniformPair) : 2 ≤ u.vars := by
  rw [vars]
  split <;> omega

theorem isWeighted_bound {x : Nat} (hx : x < 2) (c b : Int) :
    (Draft.denseRow u.vars (IndexMap.empty.insert x c, b)).IsWeighted u.weight u.vars c := by
  refine ⟨x, u.vars, Row.ext_getD (by simp [Draft.length_denseRow, length_weighted]) fun v hv => ?_⟩
  rw [Draft.length_denseRow] at hv
  simp only [Draft.denseRow, Terms.getD_dense, getD_weighted, if_pos hv, IndexMap.get?_insert,
    IndexMap.get?_empty, weight]
  grind

theorem isWeighted_stride {x k : Nat} (hx : x < 2) (hk : 2 ≤ k) (b : Int) :
    (Draft.denseRow u.vars ((Terms.unit x).insert k (-u.step), b)).IsWeighted u.weight u.vars
      1 := by
  refine ⟨x, k, Row.ext_getD (by simp [Draft.length_denseRow, length_weighted]) fun v hv => ?_⟩
  rw [Draft.length_denseRow] at hv
  simp only [Draft.denseRow, Terms.getD_dense, getD_weighted, if_pos hv, Terms.unit,
    IndexMap.get?_insert, IndexMap.get?_empty, weight]
  grind

theorem get?_meeting (v : Nat) : ((u.meeting.1).get? v).getD 0 =
    if v = 0 then u.factor else if v = 1 then -u.factor else 0 := by
  simp only [meeting, IndexMap.get?_filter, IndexMap.get?_insert, IndexMap.get?_empty]
  grind [Option.filter]

theorem isWeighted_meeting :
    (Draft.denseRow u.vars u.meeting).IsWeighted u.weight u.vars u.factor := by
  refine ⟨0, 1, Row.ext_getD (by simp [Draft.length_denseRow, length_weighted]) fun v hv => ?_⟩
  rw [Draft.length_denseRow] at hv
  simp only [Draft.denseRow, Terms.getD_dense, getD_weighted, if_pos hv, get?_meeting, weight]
  grind

theorem weighs_difference {b : Int} (hb : b.natAbs ≤ 2 ^ 21) :
    (Row.mk (difference u.vars 0 1) b).Weighs u.weight u.vars (2 ^ 20) (2 ^ 21) 0 := by
  refine ⟨1, ⟨0, 1, ?_⟩, by decide, by simpa using hb⟩
  refine Row.ext_getD (by simp [length_weighted, Row.length_difference]) fun v hv => ?_
  rw [Row.length_difference] at hv
  simp only [Row.getD_difference, getD_weighted, if_pos hv, weight]
  grind

theorem weight_le (hu : u.Small) (v : Nat) : (u.weight v).natAbs ≤ 2 ^ 20 := by
  have := hu.step_pos
  have := hu.step
  rw [weight]
  split <;> omega

theorem forall_mem_boundLe {P : Terms × Int → Prop} {x k : Nat} :
    (∀ t ∈ u.boundLe x k, P t) ↔ P (IndexMap.empty.insert x (-1), u.lower) ∧
      (u.step ≠ 1 → P (IndexMap.empty.insert k (-1), 0)) ∧
      P (IndexMap.empty.insert x 1, -u.upper) := by
  by_cases h : u.step = 1 <;> simp [boundLe, h]

theorem forall_mem_boundEq {P : Terms × Int → Prop} {x k : Nat} :
    (∀ t ∈ u.boundEq x k, P t) ↔
      (u.step ≠ 1 → P ((Terms.unit x).insert k (-u.step), -u.lower)) := by
  by_cases h : u.step = 1 <;> simp [boundEq, h]

/-- The rows of one index compare what it is worth, or bound the number of its steps. -/
theorem weighs_boundLe (hu : u.Small) {x k : Nat} (hx : x < 2) (hk : 2 ≤ k) :
    ∀ t ∈ u.boundLe x k, (Draft.denseRow u.vars t).Weighs u.weight u.vars (2 ^ 20) (2 ^ 21) 0 ∨
      ConstraintSystem.Lone u.weight u.step u.vars (2 ^ 21) (Draft.denseRow u.vars t) := by
  refine forall_mem_boundLe.mpr ⟨Or.inl ⟨-1, isWeighted_bound hx _ _, by decide, ?_⟩,
    fun hstep => Or.inr ?_, Or.inl ⟨1, isWeighted_bound hx _ _, by decide, ?_⟩⟩
  · simpa [Draft.denseRow] using hu.lower
  · have hget (v : Nat) (hv : v < u.vars) : (Draft.denseRow u.vars
        (IndexMap.empty.insert k (-1), 0)).coeffs.getD v 0 = if k = v then -1 else 0 := by
      simp only [Draft.denseRow, Terms.getD_dense, if_pos hv, IndexMap.get?_insert,
        IndexMap.get?_empty]
      grind
    refine ⟨⟨u.vars, k, Row.ext_getD ?_ fun v hv => ?_⟩, fun v hv => ?_, ?_,
      by simp [Draft.denseRow]⟩
    · rw [Draft.length_denseRow, Row.length_difference]
    · rw [Draft.length_denseRow] at hv
      rw [hget v hv, Row.getD_difference, if_pos hv]
      grind
    · have hlt : v < u.vars := by
        by_contra hlt
        exact hv (Row.coeff_of_length_le (by rw [Draft.length_denseRow]; omega))
      rw [Row.coeff, hget v hlt] at hv
      obtain rfl : k = v := by
        by_contra hne
        exact hv (if_neg hne)
      rw [weight, if_neg (by omega)]
    · have := hu.step_pos
      omega
  · simpa [Draft.denseRow] using hu.upper

theorem weighs_boundEq (hu : u.Small) {x k : Nat} (hx : x < 2) (hk : 2 ≤ k) :
    ∀ t ∈ u.boundEq x k,
      (Draft.denseRow u.vars t).Weighs u.weight u.vars (2 ^ 20) (2 ^ 21) 0 := by
  refine forall_mem_boundEq.mpr fun _ => ⟨1, isWeighted_stride hx hk _, by decide, ?_⟩
  simpa [Draft.denseRow] using hu.lower

theorem anchored (h : u.step ≠ 1) (hu : u.Small) {x k : Nat} (hx : x < 2) (hk : 2 ≤ k) :
    ConstraintSystem.Anchored u.weight ((u.boundEq x k).map (Draft.denseRow u.vars)) x := by
  have hlt : x < u.vars := hx.trans_le u.two_le_vars
  have hstep := hu.step_pos
  refine ⟨Draft.denseRow u.vars ((Terms.unit x).insert k (-u.step), -u.lower), ?_, ?_,
    fun v hv hw => ?_⟩
  · simp [boundEq, h]
  · rw [Row.coeff]
    simp only [Draft.denseRow, Terms.getD_dense, if_pos hlt, Terms.unit, IndexMap.get?_insert]
    grind
  · rw [weight] at hw
    rw [Row.coeff]
    simp only [Draft.denseRow, Terms.getD_dense, Terms.unit, IndexMap.get?_insert,
      IndexMap.get?_empty]
    grind

theorem balanced (hu : u.Small) {es rs : List Row}
    (hes : ∀ e ∈ es, e.Weighs u.weight u.vars (2 ^ 20) (2 ^ 21) 0)
    (hrs : ∀ r ∈ rs, r.Weighs u.weight u.vars (2 ^ 20) (2 ^ 21) 0) :
    ConstraintSystem.Balanced u.weight u.step u.vars (2 ^ 20) (2 ^ 21) 0
      (u.draft.eq.map (Draft.denseRow u.vars) ++ es)
      (u.draft.le.map (Draft.denseRow u.vars) ++ rs) := by
  refine ⟨?_, ?_, fun v hv => ?_⟩
  · simp only [draft, List.map_append, List.forall_mem_append, List.forall_mem_map]
    refine ⟨⟨⟨weighs_boundEq hu (by decide) (by decide), weighs_boundEq hu (by decide) (by decide)⟩,
      ?_⟩, hes⟩
    rw [List.forall_mem_singleton]
    refine ⟨u.factor, isWeighted_meeting, hu.factor, ?_⟩
    simpa [Draft.denseRow, meeting] using hu.gap
  · simp only [draft, List.map_append, List.forall_mem_append, List.forall_mem_map]
    exact ⟨⟨weighs_boundLe hu (by decide) (by decide), weighs_boundLe hu (by decide) (by decide)⟩,
      fun r hr => Or.inl (hrs r hr)⟩
  · by_cases hstep : u.step = 1
    · rw [vars, if_pos hstep] at hv
      exact Or.inl (by rw [weight, if_pos hv, hstep])
    · obtain hv | hv := lt_or_ge v 2
      · refine Or.inr (Or.inr ?_)
        obtain rfl | rfl : v = 0 ∨ v = 1 := by omega
        · obtain ⟨e, he, hone⟩ := anchored hstep hu (k := 2) hv le_rfl
          exact ⟨e, by simp [draft, he], hone⟩
        · obtain ⟨e, he, hone⟩ := anchored hstep hu (k := 3) hv (by decide)
          exact ⟨e, by simp [draft, he], hone⟩
      · exact Or.inl (by rw [weight, if_neg (by omega)])

theorem card_weight (u : UniformPair) :
    ((Finset.range u.vars).filter (u.weight · = u.step)).card = 2 := by
  by_cases h : u.step = 1
  · have hall : (Finset.range u.vars).filter (u.weight · = u.step) = Finset.range 2 := by
      ext v
      simp only [vars, weight, h, Finset.mem_filter, Finset.mem_range]
      grind
    rw [hall, Finset.card_range]
  · have hlast : (Finset.range u.vars).filter (u.weight · = u.step) = {2, 3} := by
      ext v
      simp only [vars, weight, h, Finset.mem_filter, Finset.mem_range, Finset.mem_insert,
        Finset.mem_singleton]
      grind
    rw [hlast]
    rfl

/-- Whatever a direction adds, the system is infeasible or has an integer point. -/
theorem infeasible_or_satisfies (hu : u.Small) (es rs : List Row) {s : ConstraintSystem}
    (hv : s.vars = u.vars) (he : s.equations = u.draft.eq.map (Draft.denseRow u.vars) ++ es)
    (hr : s.rows = u.draft.le.map (Draft.denseRow u.vars) ++ rs)
    (hes : ∀ e ∈ es, e.Weighs u.weight u.vars (2 ^ 20) (2 ^ 21) 0)
    (hrs : ∀ r ∈ rs, r.Weighs u.weight u.vars (2 ^ 20) (2 ^ 21) 0)
    (hes' : es.length ≤ 1) (hrs' : rs.length ≤ 1) :
    s.feasibility = .ok .infeasible ∨ s.feasibility = .ok .feasible ∧ ∃ x, s.Satisfies x := by
  have hle : s.equations.length ≤ 4 ∧ s.rows.length ≤ 7 := by
    simp only [he, hr, draft, boundEq, boundLe, List.length_append, List.length_map]
    split <;> simp <;> omega
  have hbal := balanced hu hes hrs
  rw [← he, ← hr, ← hv] at hbal
  refine hbal.infeasible_or_satisfies (fun v _ => weight_le hu v) (by decide) ?_ ?_ ?_
  · rw [hv, card_weight]
    decide
  · rw [hv, card_weight, ConstraintSystem.capacity_two]
    omega
  · have hpow : 2 ^ s.equations.length ≤ 2 ^ 4 := Nat.pow_le_pow_right (by decide) hle.1
    omega

theorem below_boundLe {x k n : Nat} (hx : x < n) (hk : u.step ≠ 1 → k < n) :
    ∀ t ∈ u.boundLe x k, t.1.Below n :=
  forall_mem_boundLe.mpr ⟨Terms.below_insert (Terms.below_empty n) hx _,
    fun h => Terms.below_insert (Terms.below_empty n) (hk h) _,
    Terms.below_insert (Terms.below_empty n) hx _⟩

theorem below_boundEq {x k n : Nat} (hx : x < n) (hk : u.step ≠ 1 → k < n) :
    ∀ t ∈ u.boundEq x k, t.1.Below n :=
  forall_mem_boundEq.mpr fun h => Terms.below_insert (Terms.below_unit hx) (hk h) _

theorem below_meeting (u : UniformPair) : u.meeting.1.Below u.vars := fun _ ht =>
  Terms.below_insert (Terms.below_insert (Terms.below_empty _) (by have := u.two_le_vars; omega) _)
    u.two_le_vars _ _ (List.mem_of_mem_filter ht)

theorem value_meeting (y : Nat → Int) : u.meeting.1.value y = u.factor * y 0 - u.factor * y 1 := by
  have hvalue : u.meeting.1.value y =
      Terms.value ((IndexMap.empty.insert 0 u.factor).insert 1 (-u.factor)) y :=
    Terms.sumOf_filter_nonzero y _
  rw [hvalue, Terms.value_insert, Terms.value_insert, Terms.value_empty, IndexMap.get?_insert]
  simp
  ring

def Runs (u : UniformPair) (n m : Int) : Prop :=
  u.lower ≤ n ∧ n ≤ u.upper ∧ (u.step ≠ 1 → 0 ≤ m ∧ n = u.lower + u.step * m)

theorem runs_iff {x k : Nat} (hxk : x ≠ k) (y : Nat → Int) :
    (∀ t ∈ u.boundLe x k, t.1.value y + t.2 ≤ 0) ∧ (∀ t ∈ u.boundEq x k, t.1.value y + t.2 = 0) ↔
      u.Runs (y x) (y k) := by
  rw [forall_mem_boundLe, forall_mem_boundEq, Runs]
  simp only [Terms.value_insert, Terms.value_empty, Terms.unit,
    IndexMap.get?_insert, IndexMap.get?_empty, if_neg hxk]
  simp
  constructor
  · rintro ⟨⟨h₁, h₂, h₃⟩, h₄⟩
    exact ⟨by omega, by omega, fun h => ⟨h₂ h, by have := h₄ h; linarith⟩⟩
  · rintro ⟨h₁, h₂, h₃⟩
    exact ⟨⟨by omega, fun h => (h₃ h).1, by omega⟩, fun h => by have := (h₃ h).2; linarith⟩

theorem Runs.reaches {n m : Int} (h : u.Runs n m) : u.Reaches n := by
  obtain ⟨hl, hr, hm⟩ := h
  by_cases hstep : u.step = 1
  · exact ⟨(n - u.lower).toNat, by rw [hstep]; omega, hr⟩
  · obtain ⟨hm, hn⟩ := hm hstep
    exact ⟨m.toNat, by rw [Int.toNat_of_nonneg hm]; exact hn, hr⟩

theorem Reaches.runs (hu : u.Small) {n : Int} (h : u.Reaches n) : ∃ m, u.Runs n m := by
  obtain ⟨m, rfl, hr⟩ := h
  have hstep := hu.step_pos
  refine ⟨m, ?_, hr, fun _ => ⟨by omega, rfl⟩⟩
  nlinarith

structure Describes (u : UniformPair) (s : ConstraintSystem) : Prop where
  vars : s.vars = u.vars
  rows : s.rows = u.draft.le.map (Draft.denseRow u.vars)
  equations : s.equations = u.draft.eq.map (Draft.denseRow u.vars)

variable {s : ConstraintSystem}

theorem Describes.satisfies_iff (h : u.Describes s) (y : Nat → Int) :
    s.Satisfies y ↔ u.Runs (y 0) (y 2) ∧ u.Runs (y 1) (y 3) ∧
      u.factor * y 0 - u.factor * y 1 + u.gap = 0 := by
  have hcolumn (hstep : u.step ≠ 1) : 2 < u.vars ∧ 3 < u.vars := by simp [UniformPair.vars, hstep]
  have h₀ : 0 < u.vars := by have := u.two_le_vars; omega
  have hmap (ts : List (Terms × Int)) (hts : ∀ t ∈ ts, t.1.Below u.vars) :
      ((∀ r ∈ ts.map (Draft.denseRow u.vars), r.value y ≤ r.rhs) ↔
        ∀ t ∈ ts, t.1.value y + t.2 ≤ 0) ∧
      ((∀ r ∈ ts.map (Draft.denseRow u.vars), r.value y = r.rhs) ↔
        ∀ t ∈ ts, t.1.value y + t.2 = 0) := by
    have hvalue (t : Terms × Int) (ht : t ∈ ts) :
        (Draft.denseRow u.vars t).value y = t.1.value y := Terms.dotFrom_dense (hts t ht) y
    rw [List.forall_mem_map, List.forall_mem_map]
    refine ⟨forall₂_congr fun t ht => ?_, forall₂_congr fun t ht => ?_⟩ <;>
      rw [hvalue t ht, Draft.denseRow] <;> dsimp only <;> omega
  have hle : ∀ t ∈ u.draft.le, t.1.Below u.vars := List.forall_mem_append.mpr
    ⟨below_boundLe h₀ fun hs => (hcolumn hs).1,
      below_boundLe u.two_le_vars fun hs => (hcolumn hs).2⟩
  have heq : ∀ t ∈ u.draft.eq, t.1.Below u.vars := List.forall_mem_append.mpr
    ⟨List.forall_mem_append.mpr ⟨below_boundEq h₀ fun hs => (hcolumn hs).1,
      below_boundEq u.two_le_vars fun hs => (hcolumn hs).2⟩,
      List.forall_mem_singleton.mpr u.below_meeting⟩
  rw [ConstraintSystem.Satisfies, h.rows, h.equations, (hmap _ hle).1, (hmap _ heq).2,
    ← runs_iff (by decide), ← runs_iff (by decide), ← value_meeting]
  simp only [draft, List.forall_mem_append, List.forall_mem_singleton]
  tauto

/-- The points of the system are the meetings of two iterations. -/
theorem Describes.exists_satisfies_iff (h : u.Describes s) (hu : u.Small) {a b : Int} :
    (∃ y, s.Satisfies y ∧ y 0 = a ∧ y 1 = b) ↔
      u.Reaches a ∧ u.Reaches b ∧ u.factor * a + u.gap = u.factor * b := by
  constructor
  · rintro ⟨y, hy, rfl, rfl⟩
    obtain ⟨ha, hb, hmeet⟩ := (h.satisfies_iff y).mp hy
    exact ⟨ha.reaches, hb.reaches, by linarith⟩
  · rintro ⟨ha, hb, hmeet⟩
    obtain ⟨m, hm⟩ := ha.runs hu
    obtain ⟨n, hn⟩ := hb.runs hu
    let y : Nat → Int := fun v => if v = 0 then a else if v = 1 then b else if v = 2 then m else n
    have hmeet : u.factor * y 0 - u.factor * y 1 + u.gap = 0 := by
      show u.factor * a - u.factor * b + u.gap = 0
      linarith
    exact ⟨y, (h.satisfies_iff y).mpr ⟨hm, hn, hmeet⟩, rfl, rfl⟩

theorem Describes.infeasible_or_satisfies (h : u.Describes s) (hu : u.Small) {d : Direction}
    (hd : d = .any ∨ d = .lt ∨ d = .eq) :
    (restrict s d (0, 1)).feasibility = .ok .infeasible ∨
      (restrict s d (0, 1)).feasibility = .ok .feasible ∧
        ∃ x, (restrict s d (0, 1)).Satisfies x := by
  have hpad : s.pad (difference s.vars 0 1) = difference u.vars 0 1 := by
    rw [ConstraintSystem.pad_of_length (Row.length_difference ..), h.vars]
  obtain rfl | rfl | rfl := hd
  · refine UniformPair.infeasible_or_satisfies hu [] [] h.vars ?_ ?_ nofun nofun (by simp)
      (by simp)
    · simpa [restrict] using h.equations
    · simpa [restrict] using h.rows
  · refine UniformPair.infeasible_or_satisfies hu [] [⟨difference u.vars 0 1, -1⟩] h.vars ?_ ?_
      nofun ?_ (by simp) (by simp)
    · simpa [restrict, ConstraintSystem.addLe] using h.equations
    · simp [restrict, ConstraintSystem.addLe, h.rows, hpad]
    · rw [List.forall_mem_singleton]
      exact weighs_difference (by decide)
  · refine UniformPair.infeasible_or_satisfies hu [⟨difference u.vars 0 1, 0⟩] [] h.vars ?_ ?_ ?_
      nofun (by simp) (by simp)
    · simp [restrict, ConstraintSystem.addEq, h.equations, hpad]
    · simpa [restrict, ConstraintSystem.addEq] using h.rows
    · rw [List.forall_mem_singleton]
      exact weighs_difference (by decide)

end UniformPair

namespace DependenceProblem

/-- Where one level is tested exactly, the search finds the signs of the distances of points and
no others. -/
theorem mem_directions_of_exact {p : DependenceProblem} {l : Nat × Nat} (hl : p.levels = [l])
    (hp : p.Levelled) (hexact : ∀ d : Direction, d = .any ∨ d = .lt ∨ d = .eq →
      (restrict p.system d l).feasibility = .ok .infeasible ∨
        (restrict p.system d l).feasibility = .ok .feasible ∧
          ∃ x, (restrict p.system d l).Satisfies x) :
    ∃ vs, p.directions = .ok vs ∧ ∀ v, v ∈ vs ↔ ∃ x, p.system.Satisfies x ∧ x l.1 ≤ x l.2 ∧
      v = [Direction.ofDistance (x l.2 - x l.1)] := by
  obtain ⟨h₁, h₂⟩ := hp l (hl ▸ List.mem_singleton_self l)
  have hdepth : p.depth = 1 := by simp [depth, hl]
  have htest (d : Direction) : p.test [d] = (restrict p.system d l).feasibility := by
    simp [test, constrained, hl]
  obtain ⟨vs, hvs⟩ : ∃ vs, p.directions = .ok vs := by
    refine directions_returns_iff.mpr fun c hc => ?_
    have hone : ∃ d, (d = .any ∨ d = .lt ∨ d = .eq) ∧
        c ++ List.replicate (p.depth - c.length) .any = [d] := by
      rw [hdepth]
      cases hc with
      | root => exact ⟨.any, Or.inl rfl, rfl⟩
      | @step c d _ hlt _ hd =>
        obtain rfl : c = [] := List.length_eq_zero_iff.mp (by omega)
        exact ⟨d, Or.inr (by simpa [candidates] using hd), rfl⟩
    obtain ⟨d, hd, hc⟩ := hone
    rw [hc, htest]
    obtain h | ⟨h, -⟩ := hexact d hd
    · exact ⟨_, h⟩
    · exact ⟨_, h⟩
  refine ⟨vs, hvs, fun v => ⟨fun hv => ?_, ?_⟩⟩
  · have hrefined := isRefined_of_mem_directions hvs hv
    obtain ⟨d, rfl⟩ := List.length_eq_one_iff.mp (hrefined.length.trans hdepth)
    have hd : d = .lt ∨ d = .eq := by
      obtain h | h | rfl := hrefined.isExact d List.mem_cons_self
      · exact Or.inl h
      · exact Or.inr h
      · exact absurd (Direction.ledBackward_cons.mpr (Or.inl rfl)) hrefined.forward
    obtain ⟨f, hf, hne⟩ := test_of_mem_directions hvs hv
    rw [htest] at hf
    obtain ⟨-, x, hx⟩ := (hexact d (Or.inr hd)).resolve_left
      fun h => hne (Except.ok.inj (hf.symm.trans h))
    obtain ⟨hx, hadmits⟩ := (satisfies_restrict h₁ h₂ d).mp hx
    refine ⟨x, hx, ?_, ?_⟩
    · obtain rfl | rfl := hd <;> simp only [Direction.Admits] at hadmits <;> omega
    · obtain rfl | rfl := hd <;> simp only [Direction.Admits] at hadmits
      · simp [Direction.ofDistance, hadmits.not_gt, hadmits.ne']
      · simp [Direction.ofDistance, hadmits]
  · rintro ⟨x, hx, hle, rfl⟩
    have hd : p.distances x = [] ++ [x l.2 - x l.1] := by simp [distances, hl]
    have hsign : 0 < x l.2 - x l.1 ∨ x l.2 - x l.1 = 0 := by omega
    have hlen : [x l.2 - x l.1].length = p.depth := by simp [hdepth]
    exact mem_directions hvs hlen (survives_of_satisfies hp hx [] _ hd)
      (hsign.imp_right fun h => ⟨h, trivial⟩)

end DependenceProblem

def Linear.affine (i : Symbol) (k c : Int) : Linear := (const c).set i k

theorem Linear.entries_affine (i : Symbol) (k c : Int) :
    (affine i k c).terms.entries = if k = 0 then [] else [(i, k)] := by
  by_cases h : k = 0 <;>
    simp [affine, set, const, erase, IndexMap.erase, IndexMap.filter, IndexMap.insert,
      IndexMap.insertEntry, IndexMap.empty, h]

theorem Linear.constant_affine (i : Symbol) (k c : Int) : (affine i k c).constant = c :=
  constant_set (const c) i k

theorem Linear.ext_entries {l m : Linear} (hc : l.constant = m.constant)
    (he : l.terms.entries = m.terms.entries) : l = m := by
  obtain ⟨c, ⟨es, _⟩, _⟩ := l
  obtain ⟨d, ⟨fs, _⟩, _⟩ := m
  obtain rfl : c = d := hc
  obtain rfl : es = fs := he
  rfl

theorem Linear.fold?_const (n : Int) (value? : Symbol → Option Int) :
    (const n).fold? value? = some (const n) := rfl

theorem Linear.fold?_affine {i : Symbol} {k c : Int} {value? : Symbol → Option Int}
    (h : value? i = none) : (affine i k c).fold? value? = some (affine i k c) := by
  rw [fold?, support, IndexMap.keys, entries_affine]
  split <;> simp [h]

theorem UniformPair.fits_draft {u : UniformPair} (hu : u.Small) :
    ∀ t ∈ u.draft.le ++ u.draft.eq, Word.Fits (-t.2) := by
  have hlower := hu.lower
  have hupper := hu.upper
  have hgap := hu.gap
  have hfits {n : Int} (hn : n.natAbs ≤ 2 ^ 21) : Word.Fits n := Word.fits_of_natAbs (by omega)
  simp only [draft, meeting, List.forall_mem_append, forall_mem_boundLe, forall_mem_boundEq,
    List.forall_mem_singleton]
  refine ⟨⟨⟨?_, ?_, ?_⟩, ?_, ?_, ?_⟩, ⟨?_, ?_⟩, ?_⟩ <;> intros <;> apply hfits <;> omega

namespace Draft

variable {u : UniformPair}

theorem neg?_eq {n : Int} (hn : n.natAbs ≤ 2 ^ 21) : Word.neg? n = some (-n) :=
  Word.fit?_of_fits (Word.fits_of_natAbs (by omega))

theorem addLower_eq {l : CountedLoop} {I : IndexMap Nat} {x : Nat} {d : Draft} (hu : u.Small)
    (hstep : l.step = u.step) :
    addLower l x I (.const u.lower) d = some ((), { d with
      unknowns := if u.step = 1 then d.unknowns else d.unknowns + 1
      le := d.le ++ ((IndexMap.empty.insert x (-1), u.lower) ::
        if u.step = 1 then [] else [(IndexMap.empty.insert d.unknowns (-1), 0)])
      eq := d.eq ++ u.boundEq x d.unknowns }) := by
  have hpos := hu.step_pos
  have hle := hu.step
  have hfirst : (Terms.sub? .empty (.unit x)) = some (IndexMap.empty.insert x (-1)) := rfl
  refine bind_eq_some.mpr ⟨(IndexMap.empty, u.lower), d, rfl, lift_bind_eq_some.mpr ⟨_, hfirst,
    bind_eq_some.mpr ⟨(), _, rfl, ?_⟩⟩⟩
  by_cases h : u.step = 1
  · simp only [hstep, h, lt_irrefl, if_true, if_false, UniformPair.boundEq, List.append_nil]
    rfl
  · have hlt : 1 < u.step := by omega
    simp only [hstep, hlt, h, if_true, if_false, UniformPair.boundEq]
    refine bind_eq_some.mpr ⟨d.unknowns, _, rfl, lift_bind_eq_some.mpr ⟨.unit x, rfl,
      lift_bind_eq_some.mpr ⟨_, neg?_eq (by omega),
        lift_bind_eq_some.mpr ⟨_, neg?_eq hu.lower, ?_⟩⟩⟩⟩
    have happ (a b : Terms × Int) : d.le ++ [a, b] = d.le ++ [a] ++ [b] := by simp
    rw [happ]
    rfl

theorem addUpper_eq {I : IndexMap Nat} {x : Nat} {d : Draft} (hu : u.Small) :
    addUpper x I (.const u.upper) d =
      some ((), { d with le := d.le ++ [(IndexMap.empty.insert x 1, -u.upper)] }) :=
  bind_eq_some.mpr ⟨(IndexMap.empty, u.upper), d, rfl, lift_bind_eq_some.mpr ⟨.unit x, rfl,
    lift_bind_eq_some.mpr ⟨_, neg?_eq hu.upper, rfl⟩⟩⟩

theorem addBounds_eq {l : CountedLoop} {I : IndexMap Nat} {x : Nat} (env : ConstEnv) (d : Draft)
    (hu : u.Small) (hx : I.get? l.index = some x) (hlo : l.lowerLinear? = some (.const u.lower))
    (hup : l.upperLinear? = some (.const u.upper)) (hstep : l.step = u.step) :
    addBounds l I env d = some ((), { d with
      unknowns := if u.step = 1 then d.unknowns else d.unknowns + 1
      le := d.le ++ u.boundLe x d.unknowns
      eq := d.eq ++ u.boundEq x d.unknowns }) := by
  have hfold (n : Int) : folded? env (some (.const n)) = some (.const n) :=
    Linear.fold?_const n env.get?
  rw [addBounds, hlo, hup, hfold, hfold]
  refine lift_bind_eq_some.mpr ⟨x, hx, bind_eq_some.mpr ⟨(), _, addLower_eq hu hstep, ?_⟩⟩
  refine (addUpper_eq hu).trans ?_
  simp [UniformPair.boundLe]

theorem addMeeting_eq {I J : IndexMap Nat} {env : ConstEnv} {i : Symbol} {k c₁ c₂ : Int} (d : Draft)
    (hu : u.Small) (hI : I.get? i = some 0) (hJ : J.get? i = some 1) (henv : env.get? i = none)
    (hk : u.factor = k) (hgap : u.gap = c₁ - c₂) :
    addMeeting env I J (.affine i k c₁) (.affine i k c₂) d =
      some ((), { d with eq := d.eq ++ [u.meeting] }) := by
  have hfactor := hu.factor
  have hconst : Word.sub? c₁ c₂ = some u.gap := by
    rw [hgap]
    exact Word.fit?_of_fits (Word.fits_of_natAbs (by have := hu.gap; omega))
  have hterms {K : IndexMap Nat} {v : Nat} (hv : K.get? i = some v) (c : Int) :
      translate K (.affine i k c) d =
        some ((if k = 0 then .empty else IndexMap.empty.insert v k, c), d) := by
    by_cases h : k = 0
    · subst h
      rfl
    · rw [if_neg h, translate, Linear.entries_affine, if_neg h, Linear.constant_affine]
      have hadd : Word.add? 0 k = some k := by
        rw [Word.add?, zero_add]
        exact Word.fit?_of_fits (Word.fits_of_natAbs (by omega))
      refine bind_eq_some.mpr ⟨_, d, bind_eq_some.mpr ⟨v, d, ?_,
        lift_bind_eq_some.mpr ⟨k, hadd, rfl⟩⟩, rfl⟩
      rw [unknownOf, hv]
      rfl
  refine lift_bind_eq_some.mpr ⟨_, Linear.fold?_affine henv, bind_eq_some.mpr ⟨_, d, hterms hI c₁,
    lift_bind_eq_some.mpr ⟨_, Linear.fold?_affine henv, bind_eq_some.mpr ⟨_, d, hterms hJ c₂, ?_⟩⟩⟩⟩
  refine lift_bind_eq_some.mpr ⟨u.meeting.1, ?_, lift_bind_eq_some.mpr ⟨u.gap, hconst, rfl⟩⟩
  rw [UniformPair.meeting, hk]
  by_cases h : k = 0
  · subst h
    rfl
  · have hsub : Word.sub? 0 k = some (-k) := by
      rw [Word.sub?, zero_sub]
      exact Word.fit?_of_fits (Word.fits_of_natAbs (by omega))
    have hentries : (IndexMap.empty.insert 1 k).entries = [(1, k)] := rfl
    simp [h, Terms.sub?, hentries, IndexMap.get?_insert, hsub]

end Draft

theorem DependenceProblem.exists_ofPair {u : UniformPair} {loops : IndexMap CountedLoop}
    {env : ConstEnv} {s t : Access} {id : LoopId} {l : CountedLoop} {c₁ c₂ : Int} (hu : u.Small)
    (hs : s.loops = [id]) (ht : t.loops = [id]) (hl : loops.get? id = some l)
    (hlo : l.lowerLinear? = some (.const u.lower)) (hup : l.upperLinear? = some (.const u.upper))
    (hstep : l.step = u.step) (henv : env.get? l.index = none)
    (hss : s.linearSubscripts? = some [.affine l.index u.factor c₁])
    (hts : t.linearSubscripts? = some [.affine l.index u.factor c₂]) (hgap : u.gap = c₁ - c₂) :
    ∃ sys, ofPair? loops env s t = some ⟨sys, [(0, 1)]⟩ ∧ u.Describes sys := by
  have hcommon : s.commonLoops t = 1 := by simp [Access.commonLoops, hs, ht, Access.commonPrefix]
  have hget (v : Nat) : (IndexMap.empty.insert l.index v).get? l.index = some v := by
    simp [IndexMap.get?_insert]
  have hindices (side : Nat) (d : Draft) : Draft.indicesOf loops 1 side 0 [id] .empty d =
      some (IndexMap.empty.insert l.index side, d) := by
    refine Draft.bind_eq_some.mpr ⟨side, d, ?_, Draft.lift_bind_eq_some.mpr ⟨l, hl, rfl⟩⟩
    simp
    rfl
  have hbounds {side : Nat} {d : Draft} :=
    Draft.addBounds_eq env d hu (hget side) hlo hup hstep
  have hall {side : Nat} {d d' : Draft}
      (h : Draft.addBounds l (IndexMap.empty.insert l.index side) env d = some ((), d')) :
      Draft.addAllBounds loops (IndexMap.empty.insert l.index side) env [id] d = some ((), d') :=
    Draft.lift_bind_eq_some.mpr ⟨l, hl, Draft.bind_eq_some.mpr ⟨(), d', h, rfl⟩⟩
  have hmeet {d : Draft} := Draft.addMeeting_eq d hu (hget 0) (hget 1) henv rfl hgap
  obtain ⟨sys, hsys, hv, hr, he⟩ := Draft.exists_system (UniformPair.fits_draft hu)
  refine ⟨sys, ?_, hv, hr, he⟩
  have hbuild : (do
      let sourceIndices ← Draft.indicesOf loops 1 0 0 [id] .empty
      let sinkIndices ← Draft.indicesOf loops 1 1 0 [id] .empty
      Draft.addAllBounds loops sourceIndices env [id]
      Draft.addAllBounds loops sinkIndices env [id]
      let a ← s.linearSubscripts?
      let b ← t.linearSubscripts?
      Draft.addMeetings env sourceIndices sinkIndices (a.zip b) : Draft.Build Unit) (.start 1) =
      some ((), u.draft) := by
    refine Draft.bind_eq_some.mpr ⟨_, _, hindices 0 _, Draft.bind_eq_some.mpr ⟨_, _, hindices 1 _,
      Draft.bind_eq_some.mpr ⟨(), _, hall hbounds, Draft.bind_eq_some.mpr ⟨(), _, hall hbounds,
      Draft.lift_bind_eq_some.mpr ⟨_, hss, Draft.lift_bind_eq_some.mpr ⟨_, hts,
      Draft.bind_eq_some.mpr ⟨(), _, hmeet, ?_⟩⟩⟩⟩⟩⟩⟩
    by_cases h : u.step = 1 <;>
      simp [Draft.addMeetings, Draft.start, UniformPair.draft, UniformPair.vars,
        UniformPair.boundLe, UniformPair.boundEq, h] <;> rfl
  simp only [ofPair?, hcommon, hs, ht, hbuild]
  simp [hsys]

end LoopLegality

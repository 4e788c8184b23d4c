import LoopLegality.Proofs.RationalPoint
import LoopLegality.Proofs.Weighted

namespace LoopLegality

namespace RatRow

theorem value_single (r : RatRow) (w : Nat) : r.value (Pi.single w 1) = r.coeffs.getD w 0 := by
  simp only [value, dotFrom_eq_sum, Nat.zero_add, Pi.single_apply, mul_ite, mul_one, mul_zero,
    Finset.sum_ite_eq', Finset.mem_range]
  split
  · rfl
  · next hw => rw [List.getD_eq_default _ _ (Nat.le_of_not_lt hw)]

theorem getD_ofRow (r : Row) (w : Nat) : (ofRow r).coeffs.getD w 0 = r.coeff w := by
  rw [ofRow, ← Int.cast_zero, List.getD_map]
  rfl

theorem coeff_reduce {r : Row} {w : Nat} (h : r.coeff w = 0) : (reduce r).coeff w = 0 := by
  rw [reduce, divideBy]
  split
  · rw [Row.coeff, ← Int.zero_ediv, List.getD_map]
    exact congrArg (· / _) h
  · exact h

theorem coeff_of_tighten {r : RatRow} {s : Row} (h : r.tighten = .ok s) {w : Nat}
    (hw : r.coeffs.getD w 0 = 0) : s.coeff w = 0 := by
  obtain ⟨t, rfl, -, l, -, hvalue, -⟩ := exists_of_tighten h
  apply coeff_reduce
  have hcoeff := hvalue (Pi.single w 1)
  rw [value_single, value_single, getD_ofRow, hw, mul_zero] at hcoeff
  exact_mod_cast hcoeff

theorem coeff_of_combine {v w : Nat} {p m s : Row} {c : RatRow} (hc : combine v p m = .ok c)
    (hs : c.tighten = .ok s) (hlen : p.coeffs.length = m.coeffs.length) (hp : 0 < p.coeff v)
    (hm : m.coeff v < 0) (hw : w = v ∨ p.coeff w = 0 ∧ m.coeff w = 0) : s.coeff w = 0 := by
  apply coeff_of_tighten hs
  rw [← value_single, (combine_spec hc hlen hp hm).2.1, value_single, value_single, getD_ofRow,
    getD_ofRow]
  obtain rfl | ⟨hpw, hmw⟩ := hw
  · have hp' : (p.coeff w : Rat) ≠ 0 := by exact_mod_cast hp.ne'
    have hm' : (m.coeff w : Rat) ≠ 0 := by exact_mod_cast hm.ne
    rw [div_self hp', div_self hm', sub_self]
  · simp [hpw, hmw]

end RatRow

namespace ConstraintSystem

variable {n v w : Nat} {vs : List Nat}

/-- The rounds of a loop, one after the other. Each takes an unknown out. -/
inductive Rounds {σ : Type} (round : σ → Nat → σ → Prop) : σ → List Nat → σ → Prop
  | nil (x : σ) : Rounds round x [] x
  | cons {x y z : σ} {v : Nat} {vs : List Nat} : round x v y → Rounds round y vs z →
      Rounds round x (v :: vs) z

/-- What a round does: it keeps an invariant, lowers a measure, takes its unknown out and brings
none back. -/
structure Progress {σ : Type} (round : σ → Nat → σ → Prop) (Inv : σ → Prop) (size : σ → Nat)
    (Free : Nat → σ → Prop) : Prop where
  inv {x y : σ} {v : Nat} : Inv x → round x v y → Inv y
  size_lt {x y : σ} {v : Nat} : Inv x → round x v y → size y < size x
  free {x y : σ} {v w : Nat} : Inv x → round x v y → w = v ∨ Free w x → Free w y

namespace Progress

variable {σ ρ : Type} {round : σ → Nat → σ → Prop} {Inv : σ → Prop} {size : σ → Nat}
  {Free : Nat → σ → Prop} {x y : σ}

/-- There are no more rounds than the measure says, and every unknown that one of them took out
stays out. -/
theorem of_rounds (h : Progress round Inv size Free) (hrounds : Rounds round x vs y)
    (hx : Inv x) :
    Inv y ∧ vs.length + size y ≤ size x ∧ ∀ w, w ∈ vs ∨ Free w x → Free w y := by
  induction hrounds with
  | nil x => exact ⟨hx, by simp, by simp⟩
  | cons hround _ ih =>
    obtain ⟨hinv, hsize, hfree⟩ := ih (h.inv hx hround)
    have hlt := h.size_lt hx hround
    refine ⟨hinv, by rw [List.length_cons]; omega, fun w hw => ?_⟩
    obtain hw | hw := hw
    · obtain rfl | hw := List.mem_cons.mp hw
      · exact hfree _ (.inr (h.free hx hround (.inl rfl)))
      · exact hfree _ (.inl hw)
    · exact hfree _ (.inr (h.free hx hround (.inr hw)))

/-- A loop whose turns either answer or make such a round comes to a turn that answers, whatever
stands for the turns after it. -/
theorem exists_rounds (h : Progress round Inv size Free) {turn : (σ → ρ) → σ → ρ}
    (hturn : ∀ x, (∃ r, ∀ rest, turn rest x = r) ∨
      ∃ v y, round x v y ∧ ∀ rest, turn rest x = rest y)
    (hx : Inv x) {k : Nat} (hk : size x < k) (base : σ → ρ) :
    ∃ vs y, Rounds round x vs y ∧ ∀ rest, turn rest y = turn^[k] base x := by
  induction k generalizing x with
  | zero => exact absurd hk (Nat.not_lt_zero _)
  | succ k ih =>
    rw [Function.iterate_succ_apply']
    obtain ⟨r, hr⟩ | ⟨v, y, hround, hcall⟩ := hturn x
    · exact ⟨[], x, .nil x, fun rest => (hr rest).trans (hr _).symm⟩
    · have hlt := h.size_lt hx hround
      obtain ⟨vs, z, hz, hend⟩ := ih (h.inv hx hround) (by omega)
      exact ⟨v :: vs, z, .cons hround hz, fun rest => (hend rest).trans (hcall _).symm⟩

end Progress

def Over (n : Nat) (rows : List Row) : Prop := ∀ r ∈ rows, r.coeffs.length = n

def Free (v : Nat) (rows : List Row) : Prop := ∀ r ∈ rows, r.coeff v = 0

section Solving

variable {es rs : List Row} {x y : List Row × List Row}

/-- One turn of the loop that solves equations, with `rest` for the turns after it. -/
def solveTurn (rest : List Row × List Row → Except Stop (List Row × List Row))
    (x : List Row × List Row) : Except Stop (List Row × List Row) := do
  match ← Stop.unchecked (solvable x.1) with
  | none => return x
  | some (k, equation, v) =>
    let equations ← Stop.checked ((swapRemove k x.1).mapM (Row.substitute? equation v))
    let rows ← Stop.checked (x.2.mapM (Row.substitute? equation v))
    rest (equations, rows)

/-- A round of that loop: an equation is solved for `v` and put into the others and the rows. -/
def SolvesFor (x : List Row × List Row) (v : Nat) (y : List Row × List Row) : Prop :=
  ∃ k e, solvable x.1 = .ok (some (k, e, v)) ∧
    (swapRemove k x.1).mapM (Row.substitute? e v) = some y.1 ∧
    x.2.mapM (Row.substitute? e v) = some y.2

theorem solveUnits_eq_iterate (k : Nat) (es rs : List Row) :
    solveUnits k es rs = solveTurn^[k] .ok (es, rs) := by
  induction k generalizing es rs with
  | zero => rfl
  | succ k ih =>
    have hrest : solveTurn^[k] .ok = fun x => solveUnits k x.1 x.2 := by
      funext x
      exact (ih x.1 x.2).symm
    rw [Function.iterate_succ_apply', hrest]
    rfl

theorem SolvesFor.length (h : SolvesFor x v y) : y.1.length + 1 = x.1.length := by
  obtain ⟨k, e, hs, hes, -⟩ := h
  have hpos : 0 < x.1.length := List.length_pos_of_mem (List.mem_of_getElem? (solvable_spec hs).1)
  rw [← (mapM_eq_some.mp hes).length_eq, length_swapRemove]
  omega

theorem SolvesFor.exists_substitute (h : SolvesFor x v y) {s : Row} (hs : s ∈ y.1 ++ y.2) :
    ∃ e ∈ x.1, e.coeff v * e.coeff v = 1 ∧ ∃ r ∈ x.1 ++ x.2, Row.substitute? e v r = some s := by
  obtain ⟨k, e, hsolvable, hes, hrs⟩ := h
  obtain ⟨hk, hunit⟩ := solvable_spec hsolvable
  refine ⟨e, List.mem_of_getElem? hk, hunit, ?_⟩
  obtain hs | hs := List.mem_append.mp hs
  · obtain ⟨r, hr, hsub⟩ := exists_of_mem_right (mapM_eq_some.mp hes) hs
    exact ⟨r, List.mem_append_left _ (mem_of_mem_swapRemove hr), hsub⟩
  · obtain ⟨r, hr, hsub⟩ := exists_of_mem_right (mapM_eq_some.mp hrs) hs
    exact ⟨r, List.mem_append_right _ hr, hsub⟩

theorem SolvesFor.over (h : SolvesFor x v y) (hx : Over n (x.1 ++ x.2)) :
    Over n (y.1 ++ y.2) := by
  intro s hs
  obtain ⟨e, he, -, r, hr, hsub⟩ := h.exists_substitute hs
  exact Row.length_substitute hsub (hx e (List.mem_append_left _ he)) (hx r hr)

theorem SolvesFor.free (h : SolvesFor x v y) (hx : Over n (x.1 ++ x.2))
    (hw : w = v ∨ Free w (x.1 ++ x.2)) : Free w (y.1 ++ y.2) := by
  intro s hs
  obtain ⟨e, he, hunit, r, hr, hsub⟩ := h.exists_substitute hs
  have he' : e ∈ x.1 ++ x.2 := List.mem_append_left _ he
  have hlen : r.coeffs.length = e.coeffs.length := (hx r hr).trans (hx e he').symm
  obtain rfl | hfree := hw
  · exact Row.coeff_of_substitute hsub hlen hunit
  · rw [(Row.substitute?_spec hsub hlen).2.1 w, hfree r hr, hfree e he', mul_zero, sub_zero]

theorem solving_progress (n : Nat) : Progress SolvesFor (fun x => Over n (x.1 ++ x.2))
    (fun x => x.1.length) fun w x => Free w (x.1 ++ x.2) where
  inv hx h := h.over hx
  size_lt _ h := Nat.lt_of_succ_le h.length.le
  free hx h := h.free hx

theorem solveTurn_cases (x : List Row × List Row) : (∃ r, ∀ rest, solveTurn rest x = r) ∨
    ∃ v y, SolvesFor x v y ∧ ∀ rest, solveTurn rest x = rest y := by
  cases hs : solvable x.1 with
  | error o => exact .inl ⟨.error .overflow, fun rest => by rw [solveTurn, hs]; rfl⟩
  | ok o =>
    cases o with
    | none => exact .inl ⟨.ok x, fun rest => by rw [solveTurn, hs]; rfl⟩
    | some p =>
      obtain ⟨k, e, v⟩ := p
      cases hes : (swapRemove k x.1).mapM (Row.substitute? e v) with
      | none =>
        refine .inl ⟨.error .gaveUp, fun rest => ?_⟩
        simp [solveTurn, hs, hes, ok_bind, error_bind]
      | some es =>
        cases hrs : x.2.mapM (Row.substitute? e v) with
        | none =>
          refine .inl ⟨.error .gaveUp, fun rest => ?_⟩
          simp [solveTurn, hs, hes, hrs, ok_bind, error_bind]
        | some rs =>
          refine .inr ⟨v, (es, rs), ⟨k, e, hs, hes, hrs⟩, fun rest => ?_⟩
          simp [solveTurn, hs, hes, hrs, ok_bind]

theorem solveUnits_stable {k : Nat} (h : es.length ≤ k) :
    solveUnits (k + 1) es rs = solveUnits k es rs := by
  induction k generalizing es rs with
  | zero =>
    obtain rfl := List.length_eq_zero_iff.mp (Nat.le_zero.mp h)
    rfl
  | succ k ih =>
    change solveTurn (fun x => solveUnits (k + 1) x.1 x.2) (es, rs) =
      solveTurn (fun x => solveUnits k x.1 x.2) (es, rs)
    obtain ⟨r, hr⟩ | ⟨v, y, hround, hcall⟩ := solveTurn_cases (es, rs)
    · rw [hr, hr]
    · have hlen : y.1.length + 1 = es.length := hround.length
      rw [hcall, hcall, ih (by omega)]

/-- The loop that solves equations ends. -/
theorem exists_rounds_solving (hx : Over n (es ++ rs)) : ∃ vs y,
    Rounds SolvesFor (es, rs) vs y ∧ ∀ rest, solveTurn rest y = solveUnits es.length es rs := by
  rw [← solveUnits_stable (Nat.le_refl _), solveUnits_eq_iterate]
  exact (solving_progress n).exists_rounds solveTurn_cases hx (Nat.lt_succ_self _) .ok

end Solving

section Eliminating

variable {rs ss ts : List Row}

def mentioned (n : Nat) (rows : List Row) : Finset Nat :=
  (Finset.range n).filter fun v => ∃ r ∈ rows, r.coeff v ≠ 0

theorem mem_mentioned : v ∈ mentioned n rs ↔ v < n ∧ ∃ r ∈ rs, r.coeff v ≠ 0 := by
  simp [mentioned]

theorem not_mem_mentioned (hrs : Over n rs) : v ∉ mentioned n rs ↔ Free v rs := by
  rw [mem_mentioned, Free]
  push Not
  refine ⟨fun h r hr => ?_, fun h _ => h⟩
  by_cases hv : v < n
  · exact h hv r hr
  · exact Row.coeff_of_length_le (by rw [hrs r hr]; omega)

theorem card_mentioned_le (n : Nat) (rs : List Row) : (mentioned n rs).card ≤ n := by
  simpa [mentioned] using Finset.card_filter_le (Finset.range n) fun v => ∃ r ∈ rs, r.coeff v ≠ 0

def kept (rows : List Row) : List Row := Row.normalize (rows.filter (!·.isTrivial))

theorem mem_of_mem_kept {r : Row} (h : r ∈ kept rs) : r ∈ rs :=
  (List.mem_filter.mp (Row.mem_normalize.mp h)).1

def eliminateTurn (vars : Nat) (rest : List Row → Except Stop Feasibility) (rows : List Row) :
    Except Stop Feasibility :=
  if rows.any fun r => r.isTrivial && r.rhs < 0 then .ok .infeasible
  else match cheapest? vars (kept rows) with
    | none => .ok .feasible
    | some v => do rest (← eliminate v (kept rows))

def Eliminates (vars : Nat) (rows : List Row) (v : Nat) (rows' : List Row) : Prop :=
  ¬ (rows.any fun r => r.isTrivial && r.rhs < 0) = true ∧ cheapest? vars (kept rows) = some v ∧
    eliminate v (kept rows) = .ok rows'

theorem eliminateAll_eq_iterate (vars k : Nat) :
    eliminateAll vars k = (eliminateTurn vars)^[k] fun _ => .error .gaveUp := by
  induction k with
  | zero => rfl
  | succ k ih =>
    funext rs
    rw [Function.iterate_succ_apply', ← ih]
    rfl

theorem Eliminates.over (h : Eliminates n rs v ss) (hrs : Over n rs) : Over n ss :=
  length_eliminate h.2.2 fun r hr => hrs r (mem_of_mem_kept hr)

theorem Eliminates.free (h : Eliminates n rs v ss) (hrs : Over n rs)
    (hw : w = v ∨ Free w rs) : Free w ss := by
  intro s hs
  obtain ⟨hs, hzero⟩ | ⟨p, hp, m, hm, hpos, hneg, c, hc, ht⟩ := (mem_eliminate h.2.2).1 s hs
  · obtain rfl | hfree := hw
    · exact hzero
    · exact hfree s (mem_of_mem_kept hs)
  · have hp := mem_of_mem_kept hp
    have hm := mem_of_mem_kept hm
    refine RatRow.coeff_of_combine hc ht ((hrs p hp).trans (hrs m hm).symm) hpos hneg ?_
    exact hw.imp_right fun hfree => ⟨hfree p hp, hfree m hm⟩

/-- After a round fewer unknowns are mentioned. -/
theorem Eliminates.mentioned_ssubset (h : Eliminates n rs v ss) (hrs : Over n rs) :
    mentioned n ss ⊂ mentioned n rs := by
  have hv : v ∈ mentioned n rs := by
    obtain ⟨hnone, -⟩ | ⟨u, hu, hsome, r, hr, hne⟩ := cheapest?_cases n (kept rs)
    · rw [h.2.1] at hnone
      cases hnone
    · obtain rfl := Option.some.inj (h.2.1.symm.trans hsome)
      exact mem_mentioned.mpr ⟨hu, r, mem_of_mem_kept hr, hne⟩
  have hss := h.over hrs
  refine Finset.ssubset_iff_of_subset ?_ |>.mpr ⟨v, hv, ?_⟩
  · intro w hw
    by_contra hfree
    exact (not_mem_mentioned hss).mpr
      (h.free hrs (.inr ((not_mem_mentioned hrs).mp hfree))) hw
  · exact (not_mem_mentioned hss).mpr (h.free hrs (.inl rfl))

theorem eliminating_progress (n : Nat) :
    Progress (Eliminates n) (Over n) (fun rs => (mentioned n rs).card) Free where
  inv hrs h := h.over hrs
  size_lt hrs h := Finset.card_lt_card (h.mentioned_ssubset hrs)
  free hrs h := h.free hrs

theorem eliminateTurn_cases (n : Nat) (rs : List Row) :
    (∃ r, ∀ rest, eliminateTurn n rest rs = r) ∨
      ∃ v ss, Eliminates n rs v ss ∧ ∀ rest, eliminateTurn n rest rs = rest ss := by
  by_cases hno : (rs.any fun r => r.isTrivial && r.rhs < 0) = true
  · exact .inl ⟨.ok .infeasible, fun rest => if_pos hno⟩
  · cases hv : cheapest? n (kept rs) with
    | none => exact .inl ⟨.ok .feasible, fun rest => by rw [eliminateTurn, if_neg hno, hv]⟩
    | some v =>
      cases hss : eliminate v (kept rs) with
      | error e =>
        exact .inl ⟨.error e, fun rest => by simp only [eliminateTurn, if_neg hno, hv, hss]; rfl⟩
      | ok ss =>
        refine .inr ⟨v, ss, ⟨hno, hv, hss⟩, fun rest => ?_⟩
        simp only [eliminateTurn, if_neg hno, hv, hss]
        rfl

/-- The loop that eliminates unknowns ends. -/
theorem exists_rounds_eliminating (hrs : Over n rs) : ∃ vs ss, Rounds (Eliminates n) rs vs ss ∧
    ∀ rest, eliminateTurn n rest ss = eliminateAll n (n + 1) rs := by
  rw [eliminateAll_eq_iterate]
  exact (eliminating_progress n).exists_rounds (eliminateTurn_cases n) hrs
    (Nat.lt_succ_of_le (card_mentioned_le n rs)) _

end Eliminating

def Enters (s : ConstraintSystem) (rows : List Row) : Prop :=
  ∃ es rs ps, solveUnits s.equations.length s.equations s.rows = .ok (es, rs) ∧
    (∀ e ∈ es, e.gcdTest = .ok true) ∧ asInequalities? es = some ps ∧
    (ps ++ rs).mapM (fun r => (RatRow.ofRow r).tighten) = .ok rows

variable {s : ConstraintSystem} {rows : List Row}

theorem Enters.over (h : s.Enters rows) : Over s.vars rows := by
  obtain ⟨es, rs, ps, hs, -, hp, ht⟩ := h
  obtain ⟨hes, hrs⟩ := length_solveUnits hs s.equations_length s.rows_length
  refine length_tightened ht fun r hr => ?_
  obtain hr | hr := List.mem_append.mp hr
  · exact length_asInequalities hp hes r hr
  · exact hrs r hr

theorem Enters.settle_eq (h : s.Enters rows) :
    s.settle = eliminateAll s.vars (s.vars + 1) rows := by
  obtain ⟨es, rs, ps, hs, hgcd, hp, ht⟩ := h
  have hall : es.allM Row.gcdTest = .ok true := allM_eq_ok_true.mpr hgcd
  simp only [settle, hs, ok_bind, hall, hp, ht, Stop.unchecked_ok, Stop.checked_some,
    Bool.not_true, Bool.false_eq_true, if_false]

/-- A feasibility test ends. It solves at most one unknown for each equation and then eliminates at
most each unknown once, until a turn answers without another. An unknown that a round has taken out
is mentioned by no row from there on, and all rows keep their length. -/
theorem feasibility_ends (s : ConstraintSystem) :
    (∀ vs es rs, Rounds SolvesFor (s.equations, s.rows) vs (es, rs) →
      vs.length + es.length ≤ s.equations.length ∧
        ∀ r ∈ es ++ rs, r.coeffs.length = s.vars ∧ ∀ v ∈ vs, r.coeff v = 0) ∧
    (∃ vs y, Rounds SolvesFor (s.equations, s.rows) vs y ∧
      ∀ rest, solveTurn rest y = solveUnits s.equations.length s.equations s.rows) ∧
    ∀ rows, s.Enters rows →
      (∀ vs rs, Rounds (Eliminates s.vars) rows vs rs →
        vs.length ≤ s.vars ∧ (∀ r ∈ rs, r.coeffs.length = s.vars ∧ ∀ v ∈ vs, r.coeff v = 0) ∧
          ∀ v rs', Eliminates s.vars rs v rs' →
            (mentioned s.vars rs').card < (mentioned s.vars rs).card) ∧
      ∃ vs rs, Rounds (Eliminates s.vars) rows vs rs ∧
        ∀ rest, Stop.answer (eliminateTurn s.vars rest rs) = s.feasibility := by
  have hover : Over s.vars (s.equations ++ s.rows) := by
    intro r hr
    obtain hr | hr := List.mem_append.mp hr
    · exact s.equations_length r hr
    · exact s.rows_length r hr
  refine ⟨fun vs es rs h => ?_, exists_rounds_solving hover, fun rows hrows =>
    ⟨fun vs rs h => ?_, ?_⟩⟩
  · obtain ⟨hover', hlen, hfree⟩ := (solving_progress s.vars).of_rounds h hover
    exact ⟨hlen, fun r hr => ⟨hover' r hr, fun v hv => hfree v (.inl hv) r hr⟩⟩
  · obtain ⟨hover', hcard, hfree⟩ := (eliminating_progress s.vars).of_rounds h hrows.over
    refine ⟨?_, fun r hr => ⟨hover' r hr, fun v hv => hfree v (.inl hv) r hr⟩, ?_⟩
    · have hle := card_mentioned_le s.vars rows
      omega
    · exact fun v rs' hround => Finset.card_lt_card (hround.mentioned_ssubset hover')
  · obtain ⟨vs, rs, hrounds, hend⟩ := exists_rounds_eliminating hrows.over
    exact ⟨vs, rs, hrounds, fun rest => by rw [hend, feasibility, hrows.settle_eq]⟩

end ConstraintSystem

end LoopLegality

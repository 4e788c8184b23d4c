import LoopLegality.Proofs.Approval

namespace LoopLegality

namespace CountedLoop

def continues (l : CountedLoop) (b x : Int) : Bool := if l.inclusive then x ≤ b else x < b

/-- The last value that passes the test. -/
def last (l : CountedLoop) (b : Int) : Int := if l.inclusive then b else b - 1

variable {l : CountedLoop} {env : ConstEnv} {lo b : Int}

theorem continues_iff {x : Int} : l.continues b x = true ↔ x ≤ l.last b := by
  unfold continues last
  cases l.inclusive <;> simp

theorem last_le (l : CountedLoop) (b : Int) : l.last b ≤ b := by
  unfold last
  split <;> omega

/-- How often the test succeeds while the index goes up from `x` by the step, over all integers. -/
def iterations (l : CountedLoop) (b x : Int) : Nat :=
  if l.continues b x then l.iterations b (x + l.step) + 1 else 0
termination_by (b + 1 - x).toNat
decreasing_by
  have hstep := l.step_pos
  have hlast := l.last_le b
  have hx := continues_iff.mp ‹_›
  omega

theorem iterations_eq (l : CountedLoop) (b x : Int) :
    (l.iterations b x : Int) = if x ≤ l.last b then (l.last b - x) / l.step + 1 else 0 := by
  have hstep := l.step_pos
  fun_induction l.iterations b x with
  | case1 x hx ih =>
    rw [continues_iff] at hx
    -- one step later the distance to the last value is shorter by the step
    have hdiv : (l.last b - (x + l.step)) / l.step = (l.last b - x) / l.step - 1 := by
      have hsub : l.last b - (x + l.step) = l.last b - x + (-1) * l.step := by omega
      rw [hsub, Int.add_mul_ediv_right _ _ hstep.ne']
      omega
    rw [if_pos hx, Int.natCast_add, ih]
    split
    · omega
    · have hzero : (l.last b - x) / l.step = 0 := Int.ediv_eq_zero_of_lt (by omega) (by omega)
      omega
  | case2 x hx =>
    rw [continues_iff] at hx
    rw [if_neg hx]
    rfl

/-- A difference or a sum on the way to the number of iterations fits no word. -/
def Overflows (l : CountedLoop) (lo b : Int) : Prop :=
  l.inclusive = false ∧ ¬ Word.Fits (b - 1) ∨
    lo ≤ l.last b ∧
      (¬ Word.Fits (l.last b - lo) ∨ ¬ Word.Fits ((l.last b - lo).tdiv l.step + 1))

theorem upperBound?_of_fits (hb : l.upper.eval? env = some b)
    (hfits : ¬ (l.inclusive = false ∧ ¬ Word.Fits (b - 1))) :
    l.upperBound? env = some (l.last b) := by
  rw [upperBound?, hb, last]
  cases hinc : l.inclusive with
  | true => rfl
  | false =>
    have hone : Word.Fits (b - 1) := by
      by_contra hne
      exact hfits ⟨hinc, hne⟩
    exact Word.fit?_of_fits hone

theorem upperBound?_of_not_fits (hb : l.upper.eval? env = some b) (hinc : l.inclusive = false)
    (hfits : ¬ Word.Fits (b - 1)) : l.upperBound? env = none := by
  rw [upperBound?, hb, hinc]
  exact Word.fit?_eq_none.mpr hfits

theorem tripCount?_of_eval? (hlo : l.lower.eval? env = some lo) (hb : l.upper.eval? env = some b) :
    l.Overflows lo b ∧ l.tripCount? env = none ∨
      ¬ l.Overflows lo b ∧ l.tripCount? env = some (l.iterations b lo : Int) := by
  have hcount : l.tripCount? env = (l.upperBound? env).bind fun hi =>
      if hi < lo then some 0
      else (Word.fit? (hi - lo)).bind fun n => Word.fit? (n.tdiv l.step + 1) := by
    rw [tripCount?, lowerBound?, hlo]
    rfl
  by_cases hone : l.inclusive = false ∧ ¬ Word.Fits (b - 1)
  · refine .inl ⟨.inl hone, ?_⟩
    rw [hcount, upperBound?_of_not_fits hb hone.1 hone.2]
    rfl
  rw [hcount, upperBound?_of_fits hb hone, Option.bind_some, iterations_eq]
  by_cases hempty : l.last b < lo
  · have hle : ¬ lo ≤ l.last b := by omega
    rw [if_pos hempty, if_neg hle]
    exact .inr ⟨fun h => h.elim hone fun h => hle h.1, rfl⟩
  have hle : lo ≤ l.last b := by omega
  rw [if_neg hempty, if_pos hle, ← Int.tdiv_eq_ediv_of_nonneg (by omega)]
  by_cases hdiff : Word.Fits (l.last b - lo)
  · rw [Word.fit?_of_fits hdiff, Option.bind_some]
    by_cases hsum : Word.Fits ((l.last b - lo).tdiv l.step + 1)
    · refine .inr ⟨?_, Word.fit?_of_fits hsum⟩
      rintro (h | ⟨-, h | h⟩)
      · exact hone h
      · exact h hdiff
      · exact h hsum
    · exact .inl ⟨.inr ⟨hle, .inr hsum⟩, Word.fit?_eq_none.mpr hsum⟩
  · rw [Word.fit?_eq_none.mpr hdiff]
    exact .inl ⟨.inr ⟨hle, .inl hdiff⟩, rfl⟩

theorem tripCount?_eq_none_of_unknown
    (h : l.lower.eval? env = none ∨ l.upper.eval? env = none) : l.tripCount? env = none := by
  obtain h | h := h
  · rw [tripCount?, lowerBound?, h]
    rfl
  · rw [tripCount?, upperBound?, h]
    cases l.lowerBound? env <;> rfl

theorem tripCount?_eq_none_iff : l.tripCount? env = none ↔
    l.lower.eval? env = none ∨ l.upper.eval? env = none ∨
      ∃ lo b, l.lower.eval? env = some lo ∧ l.upper.eval? env = some b ∧ l.Overflows lo b := by
  constructor
  · intro h
    cases hlo : l.lower.eval? env with
    | none => exact .inl rfl
    | some lo =>
      cases hb : l.upper.eval? env with
      | none => exact .inr (.inl rfl)
      | some b =>
        obtain ⟨hover, -⟩ | ⟨-, hsome⟩ := tripCount?_of_eval? hlo hb
        · exact .inr (.inr ⟨lo, b, rfl, rfl, hover⟩)
        · rw [h] at hsome
          cases hsome
  · rintro (h | h | ⟨lo, b, hlo, hb, hover⟩)
    · exact tripCount?_eq_none_of_unknown (.inl h)
    · exact tripCount?_eq_none_of_unknown (.inr h)
    · exact ((tripCount?_of_eval? hlo hb).resolve_right fun h => h.1 hover).2

theorem exists_of_tripCount? {t : Int} (h : l.tripCount? env = some t) :
    ∃ lo b, l.lower.eval? env = some lo ∧ l.upper.eval? env = some b ∧ t = l.iterations b lo := by
  have hne : l.tripCount? env ≠ none := by simp [h]
  rw [Ne, tripCount?_eq_none_iff, not_or, not_or] at hne
  obtain ⟨lo, hlo⟩ := Option.ne_none_iff_exists'.mp hne.1
  obtain ⟨b, hb⟩ := Option.ne_none_iff_exists'.mp hne.2.1
  obtain ⟨hover, -⟩ | ⟨-, ht⟩ := tripCount?_of_eval? hlo hb
  · exact absurd ⟨lo, b, hlo, hb, hover⟩ hne.2.2
  · exact ⟨lo, b, hlo, hb, Option.some.inj (h.symm.trans ht)⟩

end CountedLoop

namespace Transformation

variable {c : CheckContext} {sel : Selection} {l : ForLoop} {factor : Int}

theorem fatal_of_ite {p : Prop} [Decidable p] {o : Obstacle} {rest : Option Diagnostic}
    (ho : o.severity = .fatal) (hrest : ∀ d, rest = some d → d.severity = .fatal) :
    ∀ d, (if p then some o.diagnostic else rest) = some d → d.severity = .fatal := by
  intro d h
  split at h
  · cases h
    exact ho
  · exact hrest d h

theorem fatal_of_unrollFinding? :
    ∀ d, unrollFinding? c l factor = some d → d.severity = .fatal := by
  rw [unrollFinding?]
  refine fatal_of_ite rfl ?_
  cases CountedLoop.ofHeader? l.header with
  | none =>
    rintro d ⟨⟩
    rfl
  | some counted =>
    dsimp only
    cases l.firstUnsupported? with
    | some s =>
      rintro d ⟨⟩
      exact severity_locatedAt _ _
    | none =>
      refine fatal_of_ite rfl (fatal_of_ite rfl (fatal_of_ite rfl (fatal_of_ite rfl ?_)))
      exact fun d h => by cases h

theorem of_ite_eq_none {p : Prop} [Decidable p] {d : Diagnostic} {rest : Option Diagnostic}
    (h : (if p then some d else rest) = none) : ¬ p ∧ rest = none := by
  split at h
  · cases h
  · next hp => exact ⟨hp, h⟩

theorem exists_counted_of_unrollFinding? (h : unrollFinding? c l factor = none) :
    ∃ counted, CountedLoop.ofHeader? l.header = some counted ∧
      counted.upperBound? (c.envAt counted.id) ≠ none ∧
      counted.lowerBound? (c.envAt counted.id) ≠ none ∧
      factor ≤ (counted.tripCount? (c.envAt counted.id)).getD 0 := by
  obtain ⟨-, h⟩ := of_ite_eq_none h
  cases hc : CountedLoop.ofHeader? l.header with
  | none =>
    rw [hc] at h
    cases h
  | some counted =>
    rw [hc] at h
    dsimp only at h
    cases hs : l.firstUnsupported? with
    | some s =>
      rw [hs] at h
      cases h
    | none =>
      rw [hs] at h
      obtain ⟨hupper, h⟩ := of_ite_eq_none h
      obtain ⟨hlower, h⟩ := of_ite_eq_none h
      obtain ⟨-, h⟩ := of_ite_eq_none h
      obtain ⟨htrips, -⟩ := of_ite_eq_none h
      exact ⟨counted, rfl, by simpa using hupper, by simpa using hlower, by simpa using htrips⟩

/-- The run of a loop whose unrolling is approved is as long as the factor. -/
theorem le_iterations_of_isOk {status : Status} (h : (unroll factor).check c sel = .ok status)
    (hok : status.isOk = true) :
    ∃ loop counted lo b, sel.stmt.forLoop? = some loop ∧
      CountedLoop.ofHeader? loop.header = some counted ∧
      counted.lower.eval? (c.envAt counted.id) = some lo ∧
      counted.upper.eval? (c.envAt counted.id) = some b ∧ factor ≤ counted.iterations b lo := by
  obtain ⟨loop, an, fs, hloop, hform, -, -, -⟩ := exists_of_isOk h hok
  have hnone : unrollFinding? c loop factor = none := by
    cases hd : unrollFinding? c loop factor with
    | none => rfl
    | some d =>
      have hwarning := hform d (by simp [formFindings, hd])
      rw [fatal_of_unrollFinding? d hd] at hwarning
      cases hwarning
  obtain ⟨counted, hcounted, hupper, hlower, htrips⟩ := exists_counted_of_unrollFinding? hnone
  obtain ⟨lo, hlo⟩ := Option.ne_none_iff_exists'.mp hlower
  obtain ⟨hi, hhi⟩ := Option.ne_none_iff_exists'.mp hupper
  obtain ⟨b, hb, -⟩ := Option.bind_eq_some_iff.mp hhi
  refine ⟨loop, counted, lo, b, hloop, hcounted, hlo, hb, ?_⟩
  obtain ⟨-, ht⟩ | ⟨-, ht⟩ := CountedLoop.tripCount?_of_eval? hlo hb
  · -- a count that is lost stands for no iteration
    rw [ht] at htrips
    exact htrips.trans (Int.natCast_nonneg _)
  · rwa [ht] at htrips

end Transformation

/-- The number of iterations is that of the run from the lower bound, it is missing exactly if a
bound is unknown or an overflow stands in the way, and a loop is unrolled only as often as it
runs. -/
theorem CountedLoop.tripCount?_eq_iterations :
    (∀ (l : CountedLoop) (env : ConstEnv) (t : Int), l.tripCount? env = some t →
      ∃ lo b, l.lower.eval? env = some lo ∧ l.upper.eval? env = some b ∧
        t = l.iterations b lo) ∧
    (∀ (l : CountedLoop) (env : ConstEnv), l.tripCount? env = none ↔
      l.lower.eval? env = none ∨ l.upper.eval? env = none ∨
        ∃ lo b, l.lower.eval? env = some lo ∧ l.upper.eval? env = some b ∧ l.Overflows lo b) ∧
    ∀ (c : CheckContext) (sel : Selection) (factor : Int) (status : Status),
      (Transformation.unroll factor).check c sel = .ok status → status.isOk = true →
        ∃ loop counted lo b, sel.stmt.forLoop? = some loop ∧
          CountedLoop.ofHeader? loop.header = some counted ∧
          counted.lower.eval? (c.envAt counted.id) = some lo ∧
          counted.upper.eval? (c.envAt counted.id) = some b ∧ factor ≤ counted.iterations b lo :=
  ⟨fun _ _ _ h => exists_of_tripCount? h, fun _ _ => tripCount?_eq_none_iff,
    fun _ _ _ _ h hok => Transformation.le_iterations_of_isOk h hok⟩

namespace UnevenStride

def assignment : Stmt :=
  .expr (.assign .plain (.ident 1 .none) (.int 10 .none) .none) ⟨.none, []⟩

/-- `for (i = 0; i < n; i += 3) a[i] = 0;` -/
def loop : ForLoop where
  header := {
    id := 0
    init := some (.expr (.assign .plain (.ident 0 .none) (.int 0 .none) .none) .none)
    cond := some (.binary .lt (.ident 0 .none) (.ident 1 .none) .none)
    incr := some (.assign (.compound .add) (.ident 0 .none) (.int 3 .none) .none) }
  body := .expr (.assign .plain (.subscript (.ident 2 .none) (.ident 0 .none) .none)
    (.int 0 .none) .none) ⟨.none, []⟩
  site := ⟨.none, []⟩

def selection : Selection where
  before := [assignment]
  stmt := loop.stmt
  after := []
  depth := 0

def checkContext : CheckContext where
  program := ⟨[], [], ⟨#[⟨"i", .scalar, .none, 0⟩, ⟨"n", .scalar, .none, 0⟩,
    ⟨"a", .array 1, .none, 0⟩]⟩⟩
  function := ⟨"reset", 3, [], .compound [assignment, loop.stmt] ⟨.none, []⟩, .none⟩
  config := ⟨[], false, true, none⟩

end UnevenStride

open UnevenStride in
/-- The stride does not divide the range, and the loop may be unrolled by four. -/
theorem CountedLoop.tripCount?_unevenStride :
    (Transformation.unroll 4).check checkContext selection = .ok .clean ∧
      ∃ counted lo b, ofHeader? loop.header = some counted ∧
        counted.lower.eval? (checkContext.envAt counted.id) = some lo ∧
        counted.upper.eval? (checkContext.envAt counted.id) = some b ∧
        4 ≤ counted.iterations b lo := by
  have hcheck : (Transformation.unroll 4).check checkContext selection = .ok .clean := by cbv
  obtain ⟨l, counted, lo, b, hl, hcounted, hlo, hb, hle⟩ :=
    tripCount?_eq_iterations.2.2 _ _ _ _ hcheck rfl
  obtain rfl : loop = l := Option.some.inj hl
  exact ⟨hcheck, counted, lo, b, hcounted, hlo, hb, by omega⟩

end LoopLegality

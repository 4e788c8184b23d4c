import LoopLegality.Dependence.Analysis
import LoopLegality.Proofs.Problem
import LoopLegality.Proofs.Search

namespace LoopLegality

namespace Access

theorem commonPrefix_le (as bs : List LoopId) : commonPrefix as bs ≤ as.length := by
  fun_induction commonPrefix as bs with
  | case1 as b bs ih => exact Nat.succ_le_succ ih
  | case2 | case3 => exact Nat.zero_le _

theorem getElem?_commonPrefix {as bs : List LoopId} {k : Nat} (hk : k < commonPrefix as bs) :
    as[k]? = bs[k]? := by
  fun_induction commonPrefix as bs generalizing k with
  | case1 as b bs ih =>
    cases k with
    | zero => rfl
    | succ k => exact ih (Nat.lt_of_succ_lt_succ hk)
  | case2 | case3 => exact absurd hk (Nat.not_lt_zero k)

theorem min_commonPrefix_le (as bs ds : List LoopId) :
    min (commonPrefix as ds) (commonPrefix bs ds) ≤ commonPrefix as bs := by
  fun_induction commonPrefix as ds generalizing bs with
  | case1 as d ds ih =>
    cases bs with
    | nil => simp [commonPrefix]
    | cons b bs =>
      simp only [commonPrefix]
      by_cases hb : b = d
      · subst hb
        have := ih bs
        simp only [if_true]
        omega
      · simp [hb]
  | case2 | case3 => simp

end Access

namespace PairContext

variable {c : PairContext} {s t : Access} {σ τ : Symbol → Int}

/-- Two accesses, each at the values that the symbols have there, that may touch one element:
the values agree with the constants of the region and, but for the indices of the loops around
the accesses, with each other, the indices lie in the bounds of their loops, and subscripts that
can be compared are equal. -/
structure Meets (c : PairContext) (s t : Access) (σ τ : Symbol → Int) : Prop where
  sourceEnv : c.env.Agrees σ
  sinkEnv : c.env.Agrees τ
  outside : ∀ y, (∀ id ∈ s.loops ++ t.loops, ∀ l, c.loops.get? id = some l → l.index ≠ y) →
    σ y = τ y
  sourceBounds : ∀ id ∈ s.loops, ∀ l, c.loops.get? id = some l → l.Admits σ
  sinkBounds : ∀ id ∈ t.loops, ∀ l, c.loops.get? id = some l → l.Admits τ
  subscripts : ∀ a b, s.linearSubscripts? = some a → t.linearSubscripts? = some b →
    a.length = b.length → (∀ n, c.symbols.rank? s.symbol = some n → n = a.length) →
    a.map (·.eval σ) = b.map (·.eval τ)

/-- As `Meets`, but with only those bounds that a word can hold once the constants are put in,
and with all subscripts that correspond to each other. -/
structure Coincides (c : PairContext) (s t : Access) (σ τ : Symbol → Int) : Prop where
  sourceEnv : c.env.Agrees σ
  sinkEnv : c.env.Agrees τ
  outside : ∀ y, (∀ id ∈ s.loops ++ t.loops, ∀ l, c.loops.get? id = some l → l.index ≠ y) →
    σ y = τ y
  sourceBounds : ∀ id ∈ s.loops, ∀ l, c.loops.get? id = some l → l.AdmitsIn c.env σ
  sinkBounds : ∀ id ∈ t.loops, ∀ l, c.loops.get? id = some l → l.AdmitsIn c.env τ
  subscripts : ∀ a b, s.linearSubscripts? = some a → t.linearSubscripts? = some b →
    ∀ p ∈ a.zip b, p.1.eval σ = p.2.eval τ

theorem Meets.coincides (hm : c.Meets s t σ τ) (haff : c.isAffinePair s t = true) :
    c.Coincides s t σ τ where
  sourceEnv := hm.sourceEnv
  sinkEnv := hm.sinkEnv
  outside := hm.outside
  sourceBounds id hid l hl := (hm.sourceBounds id hid l hl).admitsIn c.env
  sinkBounds id hid l hl := (hm.sinkBounds id hid l hl).admitsIn c.env
  subscripts a b ha hb := by
    simp only [isAffinePair, ha, hb, Bool.and_eq_true, beq_iff_eq] at haff
    have hrank (n : Nat) (hn : c.symbols.rank? s.symbol = some n) : n = a.length := by
      simpa [hn] using haff.2
    have heq := hm.subscripts a b ha hb haff.1 hrank
    intro p hp
    obtain ⟨k, hk, rfl⟩ := List.getElem_of_mem hp
    simp only [List.length_zip, Nat.lt_min] at hk
    simpa [hk] using congrArg (·[k]?) heq

/-- The indices of the loops around both, at the first and at the second access, outermost loop
first. -/
def iterations (c : PairContext) (s t : Access) (σ τ : Symbol → Int) : List (Int × Int) :=
  (s.loops.take (s.commonLoops t)).map fun id =>
    ((c.loops.get? id).map fun l => (σ l.index, τ l.index)).getD (0, 0)

/-- By how much the index of each loop around both is greater at the second access, outermost
loop first. -/
def distances (c : PairContext) (s t : Access) (σ τ : Symbol → Int) : List Int :=
  (s.loops.take (s.commonLoops t)).map fun id =>
    ((c.loops.get? id).map fun l => τ l.index - σ l.index).getD 0

theorem length_distances : (c.distances s t σ τ).length = s.commonLoops t := by
  rw [distances, List.length_map, List.length_take]
  exact Nat.min_eq_left (Access.commonPrefix_le s.loops t.loops)

def commonPoint (c : PairContext) (s : Access) (σ τ : Symbol → Int) (v : Nat) : Int :=
  (((s.loops[v / 2]?).bind c.loops.get?).map fun l =>
    if v % 2 = 0 then σ l.index else τ l.index).getD 0

theorem commonPoint_source {k : Nat} {id : LoopId} {l : CountedLoop} (hk : s.loops[k]? = some id)
    (hl : c.loops.get? id = some l) : c.commonPoint s σ τ (2 * k + 0) = σ l.index := by
  have h₂ : 2 * k / 2 = k := by omega
  simp [commonPoint, h₂, hk, hl]

theorem commonPoint_sink {k : Nat} {id : LoopId} {l : CountedLoop} (hk : s.loops[k]? = some id)
    (hl : c.loops.get? id = some l) : c.commonPoint s σ τ (2 * k + 1) = τ l.index := by
  have h₂ : (2 * k + 1) / 2 = k := by omega
  simp [commonPoint, h₂, hk, hl]

theorem iterations_eq :
    c.iterations s t σ τ = (List.range (s.commonLoops t)).map fun k =>
      (c.commonPoint s σ τ (2 * k + 0), c.commonPoint s σ τ (2 * k + 1)) := by
  have hle : s.commonLoops t ≤ s.loops.length := Access.commonPrefix_le _ _
  apply List.ext_getElem
  · simp [iterations, hle]
  · intro k hk _
    simp only [iterations, List.length_map, List.length_take, Nat.lt_min] at hk
    have hget : s.loops[k]? = some s.loops[k] := List.getElem?_eq_getElem hk.2
    simp only [iterations, List.getElem_map, List.getElem_take, List.getElem_range]
    cases hl : c.loops.get? s.loops[k] with
    | none =>
      have h₁ : 2 * k / 2 = k := by omega
      have h₂ : (2 * k + 1) / 2 = k := by omega
      simp [commonPoint, h₁, h₂, hget, hl]
    | some l => rw [commonPoint_sink hget hl, commonPoint_source hget hl]; rfl

theorem distances_eq : c.distances s t σ τ = (c.iterations s t σ τ).map fun z => z.2 - z.1 := by
  rw [distances, iterations, List.map_map]
  apply List.map_congr_left
  intro id _
  cases hl : c.loops.get? id with
  | none => simp [hl]
  | some l => simp [hl]

section Indices

variable {I J : IndexMap Nat} {d₁ d₂ : Draft}

open Draft in
theorem exists_models_indices (σ τ : Symbol → Int)
    (h₁ : indicesOf c.loops (s.commonLoops t) 0 0 s.loops .empty (start (s.commonLoops t)) =
      some (I, d₁))
    (h₂ : indicesOf c.loops (s.commonLoops t) 1 0 t.loops .empty d₁ = some (J, d₂)) :
    ((∀ id ∈ s.loops, ∃ l, c.loops.get? id = some l ∧ I.get? l.index ≠ none) ∧
      ∀ id ∈ t.loops, ∃ l, c.loops.get? id = some l ∧ J.get? l.index ≠ none) ∧
    ∃ x, Extends (start (s.commonLoops t)) (c.commonPoint s σ τ) d₂ x ∧ Models I J σ τ d₂ x := by
  have hempty (d : Draft) (x : Nat → Int) (ρ : Symbol → Int) : Indexes d x ρ .empty := by
    intro y v hv
    cases hv
  obtain ⟨⟨x₁, he₁, hI⟩, hd₁, -, hknown₁⟩ := indicesOf_spec (x := c.commonPoint s σ τ) (σ := σ)
    h₁ List.drop_zero (by omega) le_rfl
    (fun _ _ _ hj hl _ => commonPoint_source hj hl) (hempty _ _ _)
  have hsink : ∀ j id l, t.loops[j]? = some id → c.loops.get? id = some l →
      j < s.commonLoops t → x₁ (2 * j + 1) = τ l.index := by
    intro j id l hj hl hlt
    have hs : s.loops[j]? = some id := (Access.getElem?_commonPrefix hlt).trans hj
    rw [he₁.2 (2 * j + 1) (by simp only [start]; omega)]
    exact commonPoint_sink hs hl
  obtain ⟨⟨x₂, he₂, hJ⟩, hd₂, -, hknown₂⟩ := indicesOf_spec h₂ List.drop_zero (by omega)
    he₁.1 hsink (hempty _ _ _)
  have hI₂ := hI.mono he₂
  have hstart : d₂ = { start (s.commonLoops t) with unknowns := d₂.unknowns } := by
    rw [hd₂, hd₁]
  refine ⟨⟨hknown₁, hknown₂⟩, x₂, he₁.trans he₂, ?_⟩
  rw [hstart] at hI₂ hJ ⊢
  exact models_of_indexes rfl rfl rfl hI₂ hJ

theorem Coincides.agreeOutside (hm : c.Coincides s t σ τ)
    (hI : ∀ id ∈ s.loops, ∃ l, c.loops.get? id = some l ∧ I.get? l.index ≠ none)
    (hJ : ∀ id ∈ t.loops, ∃ l, c.loops.get? id = some l ∧ J.get? l.index ≠ none) :
    Draft.AgreeOutside I J σ τ := by
  intro y hy₁ hy₂
  apply hm.outside
  intro id hid l hl heq
  obtain hid | hid := List.mem_append.mp hid
  · obtain ⟨l', hl', hne⟩ := hI id hid
    exact hne (by rwa [Option.some.inj (hl'.symm.trans hl), heq])
  · obtain ⟨l', hl', hne⟩ := hJ id hid
    exact hne (by rwa [Option.some.inj (hl'.symm.trans hl), heq])

end Indices

theorem ofPair?_eq_some {loops : IndexMap CountedLoop} {env : ConstEnv} {p : DependenceProblem}
    (hp : DependenceProblem.ofPair? loops env s t = some p) :
    ∃ I J d₁ d₂ d,
      Draft.indicesOf loops (s.commonLoops t) 0 0 s.loops .empty (.start (s.commonLoops t)) =
        some (I, d₁) ∧
      Draft.indicesOf loops (s.commonLoops t) 1 0 t.loops .empty d₁ = some (J, d₂) ∧
      (do
        Draft.addAllBounds loops I env s.loops
        Draft.addAllBounds loops J env t.loops
        let a ← s.linearSubscripts?
        let b ← t.linearSubscripts?
        Draft.addMeetings env I J (a.zip b) : Draft.Build Unit) d₂ = some ((), d) ∧
      d.system? = some p.system ∧
      p.levels = (List.range (s.commonLoops t)).map fun k => (2 * k, 2 * k + 1) := by
  simp only [DependenceProblem.ofPair?, Option.bind_eq_bind, Option.bind_eq_some_iff,
    Option.pure_def, Option.some.injEq] at hp
  obtain ⟨⟨⟨⟩, d⟩, hbuild, sys, hsys, rfl⟩ := hp
  obtain ⟨I, d₁, h₁, hbuild⟩ := Draft.bind_eq_some.mp hbuild
  obtain ⟨J, d₂, h₂, hbuild⟩ := Draft.bind_eq_some.mp hbuild
  exact ⟨I, J, d₁, d₂, d, h₁, h₂, hbuild, hsys, rfl⟩

/-- Two accesses that coincide satisfy the problem of the pair, with their iterations in the
columns of the levels. -/
theorem Coincides.satisfies {p : DependenceProblem} (hm : c.Coincides s t σ τ)
    (hp : DependenceProblem.ofPair? c.loops c.env s t = some p) :
    ∃ x, p.Levelled ∧ p.system.Satisfies x ∧
      p.levels.map (fun l => (x l.1, x l.2)) = c.iterations s t σ τ := by
  obtain ⟨I, J, d₁, d₂, d, h₁, h₂, hbuild, hsys, hlevels⟩ := ofPair?_eq_some hp
  obtain ⟨⟨hI, hJ⟩, x₂, he₂, hx₂⟩ := exists_models_indices σ τ h₁ h₂
  have hagree := hm.agreeOutside hI hJ
  have hkeeps := Draft.Keeps.seq
    (Draft.addAllBounds_keeps hagree hm.sourceEnv hm.sourceBounds)
    (Draft.Keeps.seq (Draft.addAllBounds_keeps hagree.symm hm.sinkEnv hm.sinkBounds).symm
      (Draft.Keeps.lift fun a ha => Draft.Keeps.lift fun b hb =>
        Draft.addMeetings_keeps hagree hm.sourceEnv hm.sinkEnv (hm.subscripts a b ha hb)))
  obtain ⟨x, he, hx⟩ := hkeeps d₂ x₂ d hx₂ hbuild
  obtain ⟨hvars, hsat⟩ := hx.system hsys
  have hext := he₂.trans he
  have hlt (k : Nat) (hk : k < s.commonLoops t) : 2 * k + 1 < d.unknowns := by
    have h := hext.1
    simp only [Draft.start] at h
    omega
  refine ⟨x, ?_, hsat, ?_⟩
  · intro l hl
    rw [hlevels] at hl
    obtain ⟨k, hk, rfl⟩ := List.mem_map.mp hl
    have := hlt k (List.mem_range.mp hk)
    exact ⟨by simp only [hvars]; omega, by simpa only [hvars] using this⟩
  · rw [iterations_eq, hlevels, List.map_map]
    apply List.map_congr_left
    intro k hk
    have hk' := List.mem_range.mp hk
    have hv (v : Nat) (hv : v < 2 * s.commonLoops t) : x v = c.commonPoint s σ τ v := hext.2 v hv
    simp only [Function.comp_apply]
    rw [hv (2 * k) (by omega), hv (2 * k + 1) (by omega)]
    rfl

/-- Two accesses that meet satisfy the problem of the pair, at the distances between them. -/
theorem Meets.satisfies {p : DependenceProblem} (hm : c.Meets s t σ τ)
    (haff : c.isAffinePair s t = true) (hp : DependenceProblem.ofPair? c.loops c.env s t = some p) :
    ∃ x, p.Levelled ∧ p.system.Satisfies x ∧ p.distances x = c.distances s t σ τ := by
  obtain ⟨x, hlev, hsat, hiter⟩ := (hm.coincides haff).satisfies hp
  refine ⟨x, hlev, hsat, ?_⟩
  rw [distances_eq, ← hiter, List.map_map]
  rfl

end PairContext

end LoopLegality

import LoopLegality.Proofs.Instances
import LoopLegality.Proofs.Walk

namespace LoopLegality

namespace PairContext

variable {c : PairContext} {s t : Access} {σ τ : Symbol → Int}

theorem privateLoops_le (c : PairContext) (s t : Access) :
    c.privateLoops s t ≤ s.commonLoops t := by
  rw [privateLoops]
  split
  · exact Access.min_commonPrefix_le _ _ _
  · exact Nat.zero_le _

section

variable {vs : List (List Direction)} {ds : List Dependence}

theorem candidates_of_none (hp : c.problem? s t = none) :
    c.candidates s t = .ok [List.replicate (c.privateLoops s t) .eq ++
      List.replicate (s.commonLoops t - c.privateLoops s t) .any] := by
  rw [candidates, hp]
  rfl

theorem candidates_of_some {p : DependenceProblem} (hp : c.problem? s t = some p) :
    c.candidates s t = .ok vs ↔ ∃ ws, p.directions = .ok ws ∧
      ws.filter (fun v => (v.take (c.privateLoops s t)).all (· == .eq)) = vs := by
  rw [candidates, hp]
  simp only [bind_eq_ok, pure_eq_ok]

theorem directions_eq_ok : c.directions s t = .ok vs ↔
    if t.isDeclaration || (s.commonLoops t == 0 && !s.precedes t) then vs = []
    else ∃ ws, c.candidates s t = .ok ws ∧ ws.filter (fun v =>
      (s.order != t.order && s.precedes t) || v.any (· != .eq)) = vs := by
  rw [directions]
  split
  · exact pure_eq_ok.trans eq_comm
  · simp only [bind_eq_ok, pure_eq_ok]

theorem mem_pairs : (s, t) ∈ (groups c.accesses).flatMap pairs ↔
    s ∈ c.accesses ∧ t ∈ c.accesses ∧ s.symbol = t.symbol ∧
      (s.isWrite = true ∨ t.isWrite = true) := by
  simp only [groups, pairs, List.mem_flatMap, List.mem_map, List.mem_filter, mem_ascending,
    Bool.or_eq_true]
  constructor
  · rintro ⟨_, ⟨y, -, rfl⟩, s', hs, t', ⟨ht, hw⟩, heq⟩
    cases heq
    simp only [List.mem_filter, beq_iff_eq] at hs ht
    exact ⟨hs.1, ht.1, hs.2.trans ht.2.symm, hw⟩
  · rintro ⟨hs, ht, hsym, hw⟩
    refine ⟨_, ⟨s.symbol, ⟨_, hs, rfl⟩, rfl⟩, s, ?_, t, ⟨?_, hw⟩, rfl⟩
    · simpa using hs
    · simpa using ⟨ht, hsym.symm⟩

theorem dependences_eq_ok : c.dependences = .ok ds ↔ ∃ found : List (List Dependence),
    List.Forall₂ (fun e es => ∃ vs, c.directions e.1 e.2 = .ok vs ∧
      vs.map (Dependence.mk e.1 e.2) = es) ((groups c.accesses).flatMap pairs) found ∧
    found.flatten = ds := by
  simp only [dependences, dependencesOf, bind_eq_ok, pure_eq_ok, mapM_eq_ok]

theorem exists_directions (h : c.dependences = .ok ds) (hs : s ∈ c.accesses)
    (ht : t ∈ c.accesses) (hsym : s.symbol = t.symbol)
    (hw : s.isWrite = true ∨ t.isWrite = true) : ∃ vs, c.directions s t = .ok vs := by
  obtain ⟨found, hfound, -⟩ := dependences_eq_ok.mp h
  obtain ⟨-, -, vs, hvs, -⟩ := exists_of_mem_left hfound (mem_pairs.mpr ⟨hs, ht, hsym, hw⟩)
  exact ⟨vs, hvs⟩

theorem mem_dependences (h : c.dependences = .ok ds) {d : Dependence} :
    d ∈ ds ↔ d.source ∈ c.accesses ∧ d.sink ∈ c.accesses ∧
      d.source.symbol = d.sink.symbol ∧ (d.source.isWrite = true ∨ d.sink.isWrite = true) ∧
      ∃ vs, c.directions d.source d.sink = .ok vs ∧ d.direction ∈ vs := by
  obtain ⟨found, hfound, rfl⟩ := dependences_eq_ok.mp h
  rw [List.mem_flatten]
  constructor
  · rintro ⟨es, hes, hd⟩
    obtain ⟨⟨s, t⟩, hpair, vs, hvs, rfl⟩ := exists_of_mem_right hfound hes
    obtain ⟨v, hv, rfl⟩ := List.mem_map.mp hd
    obtain ⟨hs, ht, hsym, hw⟩ := mem_pairs.mp hpair
    exact ⟨hs, ht, hsym, hw, vs, hvs, hv⟩
  · rintro ⟨hs, ht, hsym, hw, vs, hvs, hv⟩
    obtain ⟨es, hes, ws, hws, rfl⟩ := exists_of_mem_left hfound
      (mem_pairs.mpr ⟨hs, ht, hsym, hw⟩)
    obtain rfl : vs = ws := Except.ok.inj (hvs.symm.trans hws)
    exact ⟨_, hes, List.mem_map.mpr ⟨d.direction, hv, rfl⟩⟩

/-- No vector lets a loop that renews the object lie between two iterations. -/
theorem take_eq_of_mem_candidates (h : c.candidates s t = .ok vs) {v : List Direction}
    (hv : v ∈ vs) : ∀ d ∈ v.take (c.privateLoops s t), d = .eq := by
  intro d hd
  cases hp : c.problem? s t with
  | some p =>
    obtain ⟨ws, -, rfl⟩ := (candidates_of_some hp).mp h
    obtain ⟨-, hv⟩ := List.mem_filter.mp hv
    simpa using List.all_eq_true.mp hv d hd
  | none =>
    obtain rfl := Except.ok.inj ((candidates_of_none hp).symm.trans h)
    obtain rfl := List.mem_singleton.mp hv
    rw [List.take_append_of_le_length (by simp)] at hd
    exact List.eq_of_mem_replicate (List.mem_of_mem_take hd)

end

theorem zero_of_admits {v : List Direction} {ns : List Int} {k : Nat}
    (h : List.Forall₂ Direction.Admits v ns) (hv : ∀ d ∈ v.take k, d = .eq) :
    ∀ n ∈ ns.take k, n = 0 := by
  induction h generalizing k with
  | nil => simp
  | cons hd _ ih =>
    cases k with
    | zero => simp
    | succ k =>
      simp only [List.take_succ_cons, List.forall_mem_cons] at hv ⊢
      obtain ⟨rfl, hv⟩ := hv
      exact ⟨hd, ih hv⟩

theorem admits_replicate {ns : List Int} {k : Nat} (hk : k ≤ ns.length)
    (hz : ∀ n ∈ ns.take k, n = 0) :
    List.Forall₂ Direction.Admits
      (List.replicate k .eq ++ List.replicate (ns.length - k) .any) ns := by
  induction ns generalizing k with
  | nil =>
    obtain rfl : k = 0 := by simpa using hk
    exact .nil
  | cons n ns ih =>
    cases k with
    | zero => simpa using Direction.forall₂_admits_any (n :: ns)
    | succ k =>
      simp only [List.take_succ_cons, List.forall_mem_cons] at hz
      have htail := ih (Nat.le_of_succ_le_succ hk) hz.2
      simpa [List.replicate_succ] using List.Forall₂.cons (b := n) hz.1 htail

theorem depth_of_problem? {p : DependenceProblem} (hp : c.problem? s t = some p) :
    p.depth = s.commonLoops t := by
  rw [problem?] at hp
  split at hp
  · simp only [DependenceProblem.ofPair?, Option.bind_eq_bind, Option.bind_eq_some_iff,
      Option.pure_def, Option.some.injEq] at hp
    obtain ⟨-, -, -, -, rfl⟩ := hp
    simp [DependenceProblem.depth]
  · cases hp

/-- Some candidate admits distances whose signs no test rules out, and it does not ask for one
iteration if they are not all zero. -/
theorem exists_candidate {vs : List (List Direction)} (h : c.candidates s t = .ok vs)
    {ns : List Int} (hlen : ns.length = s.commonLoops t)
    (hs : ∀ p, c.problem? s t = some p → p.Survives [] (ns.map Direction.ofDistance))
    (hn : LexNonnegative ns) (hz : ∀ n ∈ ns.take (c.privateLoops s t), n = 0) :
    ∃ v ∈ vs, List.Forall₂ Direction.Admits v ns ∧
      ((∃ n ∈ ns, n ≠ 0) → ∃ d ∈ v, d ≠ .eq) := by
  cases hp : c.problem? s t with
  | none =>
    obtain rfl := Except.ok.inj ((candidates_of_none hp).symm.trans h)
    have hadmits := admits_replicate (hlen.symm ▸ c.privateLoops_le s t) hz
    rw [hlen] at hadmits
    refine ⟨_, List.mem_singleton_self _, hadmits, fun ⟨n, hmem, hne⟩ => ⟨.any, ?_, nofun⟩⟩
    -- a distance other than zero stands behind the loops that renew the object
    have hlt : c.privateLoops s t < s.commonLoops t := by
      by_contra hle
      rw [List.take_of_length_le (by omega)] at hz
      exact hne (hz n hmem)
    exact List.mem_append_right _ (List.mem_replicate.mpr ⟨by omega, rfl⟩)
  | some p =>
    obtain ⟨ws, hws, rfl⟩ := (candidates_of_some hp).mp h
    have hdepth : ns.length = p.depth := hlen.trans (depth_of_problem? hp).symm
    have hmem := DependenceProblem.mem_directions hws hdepth (hs p hp) hn
    refine ⟨_, List.mem_filter.mpr ⟨hmem, ?_⟩, Direction.forall₂_admits_ofDistance _, ?_⟩
    · rw [← List.map_take, List.all_map, List.all_eq_true]
      exact fun n hn => by simpa [Direction.ofDistance_eq_eq] using hz n hn
    · rintro ⟨n, hn, hne⟩
      exact ⟨_, List.mem_map_of_mem hn, fun he => hne (Direction.ofDistance_eq_eq.mp he)⟩

theorem Meets.survives (hm : c.Meets s t σ τ) {p : DependenceProblem}
    (hp : c.problem? s t = some p) :
    p.Survives [] ((c.distances s t σ τ).map Direction.ofDistance) := by
  obtain ⟨haff, hp⟩ : c.isAffinePair s t = true ∧ DependenceProblem.ofPair? c.loops c.env s t =
      some p := by simpa [problem?] using hp
  obtain ⟨x, hlev, hsat, hdist⟩ := hm.satisfies haff hp
  exact DependenceProblem.survives_of_satisfies hlev hsat [] _ hdist

theorem directions_iff_candidates {vs : List (List Direction)} (hd : t.isDeclaration = false)
    (hr : s.commonLoops t ≠ 0 ∨ s.precedes t = true) :
    c.directions s t = .ok vs ↔ ∃ ws, c.candidates s t = .ok ws ∧ ws.filter (fun v =>
      (s.order != t.order && s.precedes t) || v.any (· != .eq)) = vs := by
  have hguard : (t.isDeclaration || (s.commonLoops t == 0 && !s.precedes t)) = false := by
    rcases hr with hr | hr <;> simp [hd, hr]
  rw [directions_eq_ok, hguard, if_neg Bool.false_ne_true]

theorem mem_directions {vs : List (List Direction)} (h : c.directions s t = .ok vs)
    (hd : t.isDeclaration = false) (hr : s.commonLoops t ≠ 0 ∨ s.precedes t = true) :
    ∃ ws, c.candidates s t = .ok ws ∧ ∀ v, v ∈ vs ↔ v ∈ ws ∧
      (s.order ≠ t.order ∧ s.precedes t = true ∨ ∃ d ∈ v, d ≠ .eq) := by
  obtain ⟨ws, hws, rfl⟩ := (directions_iff_candidates hd hr).mp h
  exact ⟨ws, hws, fun v => by simp⟩

theorem commonLoops_ne_zero {ns : List Int} (hlen : ns.length = s.commonLoops t)
    (hpos : LexPositive ns) : s.commonLoops t ≠ 0 := by
  obtain ⟨n, hn, -⟩ := hpos.exists_ne_zero
  rw [← hlen]
  exact (List.length_pos_of_mem hn).ne'

theorem zero_of_mem_directions {vs : List (List Direction)} (h : c.directions s t = .ok vs)
    {v : List Direction} {ns : List Int} (hv : v ∈ vs)
    (hadmits : List.Forall₂ Direction.Admits v ns) :
    ∀ n ∈ ns.take (c.privateLoops s t), n = 0 := by
  rw [directions_eq_ok] at h
  split at h
  · subst h
    cases hv
  · obtain ⟨ws, hws, rfl⟩ := h
    exact zero_of_admits hadmits (take_eq_of_mem_candidates hws (List.mem_filter.mp hv).1)

/-- A direction vector admits the distances between two accesses that meet, the sink after the
source, exactly if no loop renews the object on the way. -/
theorem Meets.exists_direction_iff {vs : List (List Direction)} (h : c.directions s t = .ok vs)
    (hm : c.Meets s t σ τ) (hd : t.isDeclaration = false)
    (hlex : LexPositive (c.distances s t σ τ) ∨ (∀ n ∈ c.distances s t σ τ, n = 0) ∧
      s.precedes t = true ∧ s.order ≠ t.order) :
    (∃ v ∈ vs, List.Forall₂ Direction.Admits v (c.distances s t σ τ)) ↔
      ∀ n ∈ (c.distances s t σ τ).take (c.privateLoops s t), n = 0 := by
  constructor
  · rintro ⟨v, hv, hadmits⟩
    exact zero_of_mem_directions h hv hadmits
  · intro hz
    obtain hpos | ⟨hzero, hp, hne⟩ := hlex
    · have hr := commonLoops_ne_zero length_distances hpos
      obtain ⟨ws, hws, hiff⟩ := mem_directions h hd (.inl hr)
      obtain ⟨v, hv, hadmits, hsome⟩ := exists_candidate hws length_distances
        (fun _ => hm.survives) hpos.lexNonnegative hz
      exact ⟨v, (hiff v).mpr ⟨hv, .inr (hsome hpos.exists_ne_zero)⟩, hadmits⟩
    · obtain ⟨ws, hws, hiff⟩ := mem_directions h hd (.inr hp)
      obtain ⟨v, hv, hadmits, -⟩ := exists_candidate hws length_distances (fun _ => hm.survives)
        (lexNonnegative_of_zero hzero) hz
      exact ⟨v, (hiff v).mpr ⟨hv, .inl ⟨hne, hp⟩⟩, hadmits⟩

end PairContext

namespace Analyzer

variable {a : Analyzer} {stmts : List Stmt} {an : DependenceAnalysis}

def pairContext (a : Analyzer) (stmts : List Stmt) (an : DependenceAnalysis) : PairContext :=
  ⟨a.symbols, an.loops, a.regionEnv stmts an.loops, an.accesses⟩

theorem analyze_eq_ok (h : a.analyze stmts = .ok an) :
    a.collector.collect stmts = .ok ⟨an.accesses, an.loops⟩ ∧
      (a.pairContext stmts an).dependences = .ok an.dependences := by
  obtain ⟨set, hset, h⟩ := bind_eq_ok.mp h
  obtain ⟨ds, hds, h⟩ := bind_eq_ok.mp h
  cases h
  exact ⟨hset, mapError_eq_ok.mp hds⟩

theorem exists_dependence_iff_direction (h : a.analyze stmts = .ok an) {s t : Access}
    (hs : s ∈ an.accesses) (ht : t ∈ an.accesses) (hsym : s.symbol = t.symbol)
    (hw : s.isWrite = true ∨ t.isWrite = true) :
    ∃ vs, (a.pairContext stmts an).directions s t = .ok vs ∧ ∀ P : List Direction → Prop,
      (∃ d ∈ an.dependences, d.source = s ∧ d.sink = t ∧ P d.direction) ↔ ∃ v ∈ vs, P v := by
  have hds := (analyze_eq_ok h).2
  obtain ⟨vs, hvs⟩ := PairContext.exists_directions hds hs ht hsym hw
  refine ⟨vs, hvs, fun P => ?_⟩
  simp only [PairContext.mem_dependences hds]
  constructor
  · rintro ⟨d, ⟨-, -, -, -, ws, hws, hv⟩, rfl, rfl, hp⟩
    obtain rfl : vs = ws := Except.ok.inj (hvs.symm.trans hws)
    exact ⟨d.direction, hv, hp⟩
  · rintro ⟨v, hv, hp⟩
    exact ⟨⟨s, t, v⟩, ⟨hs, ht, hsym, hw, vs, hvs, hv⟩, rfl, rfl, hp⟩

/-- Between two accesses of one object that meet, the sink after the source, a dependence is
reported whose vector admits the distances, unless a loop renews the object on the way. -/
theorem exists_dependence_iff (h : a.analyze stmts = .ok an) {s t : Access}
    (hs : s ∈ an.accesses) (ht : t ∈ an.accesses) (hsym : s.symbol = t.symbol)
    (hw : s.isWrite = true ∨ t.isWrite = true) (hd : t.isDeclaration = false)
    {σ τ : Symbol → Int} (hm : (a.pairContext stmts an).Meets s t σ τ)
    (hlex : LexPositive ((a.pairContext stmts an).distances s t σ τ) ∨
      (∀ n ∈ (a.pairContext stmts an).distances s t σ τ, n = 0) ∧ s.precedes t = true) :
    (∃ d ∈ an.dependences, d.source = s ∧ d.sink = t ∧
        List.Forall₂ Direction.Admits d.direction
          ((a.pairContext stmts an).distances s t σ τ)) ↔
      ∀ n ∈ ((a.pairContext stmts an).distances s t σ τ).take
        ((a.pairContext stmts an).privateLoops s t), n = 0 := by
  obtain ⟨tr, -, hset⟩ := Collector.collect_eq_ok (analyze_eq_ok h).1
  have hacc : an.accesses = tr.accesses := congrArg AccessSet.accesses hset
  have horder (hp : s.precedes t = true) : s.order ≠ t.order :=
    Trail.order_ne_of_precedes (hacc ▸ hs) (hacc ▸ ht) hp
  obtain ⟨vs, hvs, hiff⟩ := exists_dependence_iff_direction h hs ht hsym hw
  exact (hiff _).trans
    (hm.exists_direction_iff hvs hd (hlex.imp_right fun hz => ⟨hz.1, hz.2, horder hz.2⟩))

end Analyzer

namespace StridedCopy

/-- `for (i = 0; i < 8; i += 2) a[i + offset] = a[i];` -/
def loop (offset : Int) : ForLoop where
  header :=
    { id := 0
      init := some (.expr (.assign .plain (.ident 0 .none) (.int 0 .none) .none) .none)
      cond := some (.binary .lt (.ident 0 .none) (.int 8 .none) .none)
      incr := some (.assign (.compound .add) (.ident 0 .none) (.int 2 .none) .none) }
  body := .expr (.assign .plain
    (.subscript (.ident 1 .none) (.binary .add (.ident 0 .none) (.int offset .none) .none) .none)
    (.subscript (.ident 1 .none) (.ident 0 .none) .none) .none) ⟨.none, []⟩
  site := ⟨.none, []⟩

def counted : CountedLoop where
  id := 0
  index := 0
  declaresIndex := false
  lower := .int 0 .none
  upper := .int 8 .none
  inclusive := false
  step := 2
  step_pos := by decide

def analyzer : Analyzer where
  symbols := .empty
  calls := ⟨[], []⟩
  config := .default

def access (symbol : Symbol) (isWrite : Bool) (subscripts : Option (List (Option Linear)))
    (order : Nat) : Access :=
  ⟨⟨symbol, isWrite, subscripts, false, .none⟩, [0], 1, 0, order⟩

def write (offset : Int) : Access := access 1 true (some [(Linear.var 0).add? (.const offset)]) 0

def read : Access := access 1 false (some [some (.var 0)]) 2

def context (offset : Int) : PairContext where
  symbols := .empty
  loops := IndexMap.empty.insert 0 counted
  env := .empty
  accesses := [write offset, access 0 false none 1, read, access 0 false none 3]

def analysis : DependenceAnalysis where
  accesses := (context 2).accesses
  dependences := [⟨write 2, read, [.lt]⟩]
  loops := (context 2).loops

theorem analyze_loop : analyzer.analyze [(loop 2).stmt] = .ok analysis := by cbv

def valuation (n : Int) : Symbol → Int := fun y => if y = 0 then n else 0

theorem admits_valuation {n : Int} (h₀ : 0 ≤ n) (h₈ : n < 8) (h₂ : n % 2 = 0) :
    ∀ id ∈ [0], ∀ l, (context 2).loops.get? id = some l → l.Admits (valuation n) := by
  intro id hid l hl
  obtain rfl : id = 0 := List.mem_singleton.mp hid
  obtain rfl : counted = l := Option.some.inj hl
  refine ⟨fun lower h => ⟨(n / 2).toNat, ?_⟩, fun upper h => ?_⟩
  · obtain rfl : lower = .const 0 := (Option.some.inj h).symm
    show n = 0 + 2 * ((n / 2).toNat : Int)
    omega
  · obtain rfl : upper = .const 7 := (Option.some.inj h).symm
    show n ≤ 7
    omega

theorem meets_next : (context 2).Meets (write 2) read (valuation 0) (valuation 2) where
  sourceEnv := nofun
  sinkEnv := nofun
  outside y hy := by
    have hne : 0 ≠ y := hy 0 (by decide) counted rfl
    simp [valuation, hne.symm]
  sourceBounds := admits_valuation (by decide) (by decide) (by decide)
  sinkBounds := admits_valuation (by decide) (by decide) (by decide)
  subscripts a b ha hb _ _ := by
    cases ha
    cases hb
    rfl

end StridedCopy

open StridedCopy in
/-- The element that one iteration writes is read in the next. -/
theorem Analyzer.exists_dependence_stridedCopy :
    analyzer.analyze [(loop 2).stmt] = .ok analysis ∧
      (context 2).Meets (write 2) read (valuation 0) (valuation 2) ∧
      ∃ d ∈ analysis.dependences, d.source = write 2 ∧ d.sink = read ∧
        List.Forall₂ Direction.Admits d.direction [2] := by
  have hs : write 2 ∈ analysis.accesses := List.mem_of_getElem? (i := 0) rfl
  have ht : read ∈ analysis.accesses := List.mem_of_getElem? (i := 2) rfl
  have hpos : LexPositive ((context 2).distances (write 2) read (valuation 0) (valuation 2)) :=
    Or.inl (by decide)
  exact ⟨analyze_loop, meets_next, (exists_dependence_iff analyze_loop hs ht rfl (Or.inl rfl) rfl
    meets_next (Or.inl hpos)).mpr nofun⟩

end LoopLegality

import LoopLegality.Proofs.Walk

namespace LoopLegality

/-- Running the region may use this inside these loops. -/
def Executes (c : Touch.Context) (stmts : List Stmt) (chain : List LoopId) (site : Use.Site)
    (u : Use) : Prop :=
  ∃ st ∈ stmts, st.Uses c chain site u

namespace AccessSet

/-- Some access records the use with the loops around it. -/
def Records (set : AccessSet) (chain : List LoopId) (u : Use) : Prop :=
  ∃ a ∈ set.accesses, a.use = u ∧ a.loops = chain

def IsOutermostIndex (set : AccessSet) (chain : List LoopId) (x : Symbol) : Prop :=
  ∃ id l, chain.head? = some id ∧ set.loops.get? id = some l ∧ l.index = x

/-- Every use has an access, in headers as well as in statements. Left out are the headers of
outermost loops, and their indices. -/
def Covers (set : AccessSet) (c : Touch.Context) (stmts : List Stmt) : Prop :=
  ∀ chain site u, Executes c stmts chain site u → (site = .header → chain ≠ []) →
    ¬ set.IsOutermostIndex chain u.symbol → set.Records chain u

end AccessSet

namespace Collector

variable {c : Collector} {stmts : List Stmt} {set : AccessSet}

theorem records_iff (h : c.collect stmts = .ok set) (chain : List LoopId) (u : Use) :
    set.Records chain u ↔ Executes c.context stmts chain .statement u := by
  obtain ⟨tr, htr, rfl⟩ := collect_eq_ok h
  obtain ⟨gs, hw, -⟩ := Trail.walkNumbered_spec [] 0 stmts htr
  have hgs : tr.groups = gs := hw.groups
  constructor
  · rintro ⟨a, ha, rfl, rfl⟩
    obtain ⟨g, hg, ht, hl, -⟩ := Trail.exists_group ha
    obtain ⟨ids, hids, hu⟩ := hw.sound g (hgs ▸ hg) _ (List.mem_map_of_mem ht)
    rw [hl, hids]
    exact hu
  · intro hu
    obtain ⟨g, hg, hl, hmem⟩ := hw.complete chain u hu
    obtain ⟨touch, ht, rfl⟩ := List.mem_map.mp hmem
    obtain ⟨a, ha, rfl, hloops, -⟩ := Trail.exists_access (hgs ▸ hg) ht
    exact ⟨a, ha, rfl, hloops.trans hl⟩

/-- Headers are not collected: nothing is missed exactly if each use in the header of a nested
loop is also made by a statement inside the same loops. -/
theorem covers_iff_header_repeated (h : c.collect stmts = .ok set) :
    (∀ chain u, set.Records chain u ↔ Executes c.context stmts chain .statement u) ∧
      (set.Covers c.context stmts ↔ ∀ chain u, Executes c.context stmts chain .header u →
        chain ≠ [] → ¬ set.IsOutermostIndex chain u.symbol →
        Executes c.context stmts chain .statement u) := by
  refine ⟨records_iff h, fun hcov chain u hu hne hi => ?_, fun hrep chain site u hu hne hi => ?_⟩
  · exact (records_iff h chain u).mp (hcov chain .header u hu (fun _ => hne) hi)
  · rw [records_iff h]
    cases site with
    | statement => exact hu
    | header => exact hrep chain u hu (hne rfl) hi

end Collector

namespace NestedBound

def header (id : LoopId) (x : Symbol) (upper : Expr) : ForHeader where
  id := id
  init := some (.expr (.assign .plain (.ident x .none) (.int 0 .none) .none) .none)
  cond := some (.binary .lt (.ident x .none) upper .none)
  incr := some (.unary .postIncr (.ident x .none) .none)

def counted (id : LoopId) (x : Symbol) (upper : Expr) : CountedLoop where
  id := id
  index := x
  declaresIndex := false
  lower := .int 0 .none
  upper := upper
  inclusive := false
  step := 1
  step_pos := by decide

def outer : Expr := .int 8 .none

def inner : Expr := .subscript (.ident 2 .none) (.ident 0 .none) .none

/-- `for (i = 0; i < 8; i++) for (j = 0; j < a[i]; j++) s += j;` -/
def stmt : Stmt :=
  .forLoop (header 0 0 outer) (.forLoop (header 1 1 inner)
    (.expr (.assign (.compound .add) (.ident 3 .none) (.ident 1 .none) .none) ⟨.none, []⟩)
    ⟨.none, []⟩) ⟨.none, []⟩

def collector : Collector where
  symbols := .empty
  calls := ⟨[], []⟩
  config := .default

def access (x : Symbol) (isWrite : Bool) (order : Nat) : Access :=
  ⟨⟨x, isWrite, none, false, .none⟩, [0, 1], 1, 0, order⟩

def accessSet : AccessSet where
  accesses := [access 3 true 0, access 3 false 1, access 1 false 2]
  loops := (IndexMap.empty.insert 0 (counted 0 0 outer)).insert 1 (counted 1 1 inner)

theorem executes_bound (c : Touch.Context) :
    Executes c [stmt] [0] .header (.of 2 (some [.ident 0 .none]) false) := by
  refine ⟨stmt, List.mem_singleton_self _, .body _ _ (.clause _ _ (Or.inr ?_))⟩
  exact ⟨_, Or.inl rfl, .through (.right ..) (.own (.element (.element ..)))⟩

end NestedBound

open NestedBound in
/-- No access is a read of the array in the inner bound. -/
theorem Collector.not_covers_nestedBound :
    collector.collect [stmt] = .ok accessSet ∧ ¬ accessSet.Covers collector.context [stmt] := by
  have h : collector.collect [stmt] = .ok accessSet := rfl
  refine ⟨h, fun hcov => ?_⟩
  obtain ⟨hrec, hcovers⟩ := covers_iff_header_repeated h
  have hindex : ¬ accessSet.IsOutermostIndex [0] 2 := by
    rintro ⟨id, l, hid, hl, hx⟩
    cases hid
    cases hl
    cases hx
  have hstmt := hcovers.mp hcov [0] _ (executes_bound _) nofun hindex
  obtain ⟨a, ha, -, hloops⟩ := (hrec _ _).mpr hstmt
  simp only [accessSet, List.mem_cons, List.not_mem_nil, or_false] at ha
  rcases ha with rfl | rfl | rfl <;> cases hloops

end LoopLegality

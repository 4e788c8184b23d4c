import LoopLegality.Proofs.Approval
import LoopLegality.Proofs.DependenceSet

namespace LoopLegality

namespace Stmt

/-- The declarators of a statement that stand in no block inside it, so that their scope reaches the
statements behind it. A `for` statement is a block of its own. -/
def openDeclarators : Stmt → List Declarator
  | decl ds _ => ds
  | branch _ y none _ => y.openDeclarators
  | branch _ y (some n) _ => y.openDeclarators ++ n.openDeclarators
  | whileLoop _ b _ | doWhile b _ _ | switch _ b _ | label _ b _ => b.openDeclarators
  | _ => []

/-- The statement at the second position refers to a symbol that the one at the first declares. -/
structure Crosses (ss : List Stmt) (j k : Nat) (x : Symbol) : Prop where
  ne : j ≠ k
  declares : ∃ st, ss[j]? = some st ∧ ∃ d ∈ st.openDeclarators, d.symbol = x
  refers : ∃ st, ss[k]? = some st ∧ x ∈ st.referenced

def RespectScopes (ss : List Stmt) : Prop := ∀ j k x, ¬ Crosses ss j k x

/-- A declaration statement makes a new object of the symbol whenever it is reached. -/
def RenewedBy (ss : List Stmt) (x : Symbol) : Prop :=
  ∃ st ∈ ss, ∃ ids d, st.Visits ids .statement (.declarator d) ∧ d.symbol = x ∧
    d.storage = .automatic

/-- Running the statement at a position, the headers of its loops apart, may read or write the
symbol. -/
def TouchedAt (c : Touch.Context) (ss : List Stmt) (k : Nat) (x : Symbol) : Prop :=
  ∃ st, ss[k]? = some st ∧ ∃ ids u, st.Uses c ids .statement u ∧ u.symbol = x

theorem uses_of_mem_openDeclarators {c : Touch.Context} {st : Stmt} {d : Declarator}
    (h : d ∈ st.openDeclarators) : st.Uses c [] .statement (.of d.symbol none true) := by
  fun_induction openDeclarators st with
  | case1 ds s => exact .decl s h (Or.inr rfl)
  | case2 e y s ih => exact .yes e none s (ih h)
  | case3 e y n s ihy ihn =>
    obtain h | h := List.mem_append.mp h
    · exact .yes e (some n) s (ihy h)
    · exact .no e y s (ihn h)
  | case4 e b s ih => exact .whileBody e s (ih h)
  | case5 b e s ih => exact .doBody e s (ih h)
  | case6 e b s ih => exact .switchBody e s (ih h)
  | case7 n b s ih => exact .labelled n s (ih h)
  | case8 => cases h

theorem visits_iff_statements {b : Stmt} {ids : List LoopId} {p : Use.Site} {n : Node} :
    b.Visits ids p n ↔ ∃ st ∈ b.statements, st.Visits ids p n := by
  cases b with
  | compound ss s =>
    constructor
    · intro h
      cases h with
      | item _ hst h => exact ⟨_, hst, h⟩
    · rintro ⟨st, hst, h⟩
      exact .item s hst h
  | _ => simp [statements]

theorem visited_loop_iff {l : ForLoop} {n : Node} :
    (∃ chain, Visited [l.stmt] chain .statement n) ↔
      ∃ st ∈ l.body.statements, ∃ ids, st.Visits ids .statement n := by
  constructor
  · rintro ⟨chain, st, hst, h⟩
    obtain rfl := List.mem_singleton.mp hst
    cases h with
    | body f s h =>
      obtain ⟨st, hst, h⟩ := visits_iff_statements.mp h
      exact ⟨st, hst, _, h⟩
  · rintro ⟨st, hst, ids, h⟩
    have hbody : l.body.Visits ids .statement n := visits_iff_statements.mpr ⟨st, hst, h⟩
    exact ⟨l.header.id :: ids, l.stmt, List.mem_singleton_self _, .body l.header l.site hbody⟩

end Stmt

theorem Access.commonLoops_pos {s t : Access} {id : LoopId} {ids ids' : List LoopId}
    (hs : s.loops = id :: ids) (ht : t.loops = id :: ids') : 0 < s.commonLoops t := by
  simp [commonLoops, hs, ht, commonPrefix]

theorem PairContext.problem?_of_scalar {c : PairContext} {s t : Access}
    (h : s.subscripts = none ∨ t.subscripts = none) : c.problem? s t = none := by
  have hpair : c.isAffinePair s t = false := by
    rw [isAffinePair]
    obtain h | h := h
    · simp [Access.linearSubscripts?, h]
    · have hsink : t.linearSubscripts? = none := by simp [Access.linearSubscripts?, h]
      rw [hsink]
      cases s.linearSubscripts? <;> rfl
  simp [problem?, hpair]

theorem Dependence.runsForward_of_head {d : Dependence} (h : d.direction[0]? = some .eq) :
    d.runsForward = false := by
  simp [runsForward, directionAt?, h, Direction.mayBeForward]

namespace Analyzer

variable {a : Analyzer} {l : ForLoop} {an : DependenceAnalysis}

theorem exists_access_at (h : a.analyze [l.stmt] = .ok an) {k : Nat} {st : Stmt}
    (hk : l.body.statements[k]? = some st) {ids : List LoopId} {u : Use}
    (hu : st.Uses a.collector.context ids .statement u) :
    ∃ b ∈ an.accesses, b.use = u ∧ b.topLevel = k := by
  obtain ⟨tr, htr, hset⟩ := Collector.collect_eq_ok (analyze_eq_ok h).1
  have haccesses : an.accesses = tr.accesses := congrArg AccessSet.accesses hset
  obtain ⟨t, hwalk, hrest⟩ := bind_eq_ok.mp htr
  cases hrest
  obtain ⟨cl, -, hbody⟩ := Trail.walk_outermost hwalk
  obtain ⟨t₁, t₂, hst, htop, hsub⟩ := Trail.walkNumbered_getElem? hk hbody
  obtain ⟨gs, hw, hsteady⟩ := Trail.walk_spec [cl] st hst
  obtain ⟨g, hg, -, hmem⟩ := hw.complete ids u hu
  obtain ⟨touch, htouch, rfl⟩ := List.mem_map.mp hmem
  have hgroup : g ∈ tr.groups := hsub (hw.groups ▸ List.mem_append_right _ hg)
  obtain ⟨b, hb, rfl, -, hbtop⟩ := Trail.exists_access hgroup htouch
  refine ⟨b, haccesses ▸ hb, rfl, ?_⟩
  rw [hbtop, (hsteady (List.cons_ne_nil cl [])).2 g hg, htop, Nat.zero_add]

theorem renewedBy_iff (h : a.analyze [l.stmt] = .ok an) {x : Symbol} :
    Stmt.RenewedBy l.body.statements x ↔
      ∃ b ∈ an.accesses, b.symbol = x ∧ b.isDeclaration = true := by
  have hiff (chain : List LoopId) :
      (∃ b ∈ an.accesses, b.symbol = x ∧ b.isDeclaration = true ∧ b.loops = chain) ↔
        ∃ d, Visited [l.stmt] chain .statement (.declarator d) ∧ d.symbol = x ∧
          d.storage = .automatic :=
    Collector.exists_declaration_iff (analyze_eq_ok h).1
  constructor
  · rintro ⟨st, hst, ids, d, hv, hx, hauto⟩
    obtain ⟨chain, hvisited⟩ := Stmt.visited_loop_iff.mpr ⟨st, hst, ids, hv⟩
    obtain ⟨b, hb, hsym, hdecl, -⟩ := (hiff chain).mpr ⟨d, hvisited, hx, hauto⟩
    exact ⟨b, hb, hsym, hdecl⟩
  · rintro ⟨b, hb, hsym, hdecl⟩
    obtain ⟨d, hvisited, hx, hauto⟩ := (hiff b.loops).mp ⟨b, hb, hsym, hdecl, rfl⟩
    obtain ⟨st, hst, ids, hv⟩ := Stmt.visited_loop_iff.mp ⟨b.loops, hvisited⟩
    exact ⟨st, hst, ids, d, hv, hx, hauto⟩

namespace AnalyzesLoop

variable {counted : CountedLoop}

/-- Between two accesses of a variable that lasts from iteration to iteration, a dependence runs
forward, whichever of them is its source. -/
theorem exists_forward_of_scalar (h : a.AnalyzesLoop l an counted) {s t : Access}
    (hs : s ∈ an.accesses) (ht : t ∈ an.accesses) (hsym : s.symbol = t.symbol)
    (hw : s.isWrite = true ∨ t.isWrite = true)
    (hscalar : s.subscripts = none ∨ t.subscripts = none)
    (hlasting : ∀ b ∈ an.accesses, b.symbol = s.symbol → b.isDeclaration = false) :
    ∃ d ∈ an.dependences, d.source = s ∧ d.sink = t ∧ d.runsForward = true := by
  obtain ⟨sids, -, hsl, -⟩ := h.placed s hs
  obtain ⟨tids, -, htl, -⟩ := h.placed t ht
  have hcommon : s.commonLoops t ≠ 0 := (Access.commonLoops_pos hsl htl).ne'
  have hproblem : (a.pairContext [l.stmt] an).problem? s t = none :=
    PairContext.problem?_of_scalar hscalar
  have hprivate : (a.pairContext [l.stmt] an).privateLoops s t = 0 :=
    PairContext.privateLoops_eq_zero hlasting
  -- one iteration of the outermost loop lies between the two, and none of the others
  let ns : List Int := 1 :: List.replicate (s.commonLoops t - 1) 0
  have hlength : ns.length = s.commonLoops t := by
    simp only [ns, List.length_cons, List.length_replicate]
    omega
  obtain ⟨vs, hvs, hiff⟩ := exists_dependence_iff_direction h.analyzed hs ht hsym hw
  obtain ⟨ws, hws, hdirections⟩ :=
    PairContext.mem_directions hvs (hlasting t ht hsym.symm) (Or.inl hcommon)
  obtain ⟨v, hv, hadmits, hne⟩ := PairContext.exists_candidate hws hlength
    (fun p hp => by
      rw [hproblem] at hp
      cases hp)
    (Or.inl one_pos) (by simp [hprivate])
  have hmem : v ∈ vs :=
    (hdirections v).mpr ⟨hv, Or.inr (hne ⟨1, List.mem_cons_self, one_ne_zero⟩)⟩
  obtain ⟨d, hd, rfl, rfl, hdadmits⟩ :=
    (hiff fun w => List.Forall₂ Direction.Admits w ns).mpr ⟨v, hmem, hadmits⟩
  exact ⟨d, hd, rfl, rfl, (Dependence.runsForward_of_admits hw hdadmits one_pos).2⟩

/-- No dependence on a variable that the body renews runs from one iteration to another. -/
theorem runsForward_eq_false_of_renewed (h : a.AnalyzesLoop l an counted) {d : Dependence}
    (hd : d ∈ an.dependences) (hrenewed : Stmt.RenewedBy l.body.statements d.source.symbol) :
    d.runsForward = false := by
  obtain ⟨hsource, hsink, -, -, vs, hvs, hv⟩ :=
    (PairContext.mem_dependences (analyze_eq_ok h.analyzed).2).mp hd
  obtain ⟨b, hb, hsym, hdecl⟩ := (renewedBy_iff h.analyzed).mp hrenewed
  obtain ⟨ids, -, hloops, -⟩ := h.placed b hb
  obtain ⟨decl, hfind⟩ : ∃ decl,
      (a.pairContext [l.stmt] an).declaration? d.source.symbol = some decl :=
    Option.isSome_iff_exists.mp (List.find?_isSome.mpr ⟨b, hb,
      PairContext.renewal_iff.mpr ⟨hsym, hdecl, by simp [hloops]⟩⟩)
  obtain ⟨dids, -, hdl, -⟩ := h.placed decl (List.mem_of_find?_eq_some hfind)
  obtain ⟨sids, -, hsl, -⟩ := h.placed _ hsource
  obtain ⟨tids, -, htl, -⟩ := h.placed _ hsink
  -- the outermost loop encloses both accesses and the declaration
  have hprivate : 0 < (a.pairContext [l.stmt] an).privateLoops d.source d.sink := by
    rw [PairContext.privateLoops, hfind]
    exact lt_min (Access.commonLoops_pos hsl hdl) (Access.commonLoops_pos htl hdl)
  obtain ⟨⟨ws, hws, hcandidate⟩, -⟩ := PairContext.of_mem_directions hvs hv
  have hlength : 0 < d.direction.length := by
    rw [PairContext.length_of_mem_candidates hws hcandidate]
    exact Access.commonLoops_pos hsl htl
  have hmem : d.direction[0] ∈
      d.direction.take ((a.pairContext [l.stmt] an).privateLoops d.source d.sink) :=
    List.mem_take_iff_getElem.mpr ⟨0, lt_min hprivate hlength, rfl⟩
  apply Dependence.runsForward_of_head
  rw [List.getElem?_eq_getElem hlength, PairContext.take_eq_of_mem_candidates hws hcandidate _ hmem]

/-- If no dependence leads from a later statement back to an earlier one, a statement touches what
another one declares only if it is renewed. -/
theorem renewed_of_crosses (h : a.AnalyzesLoop l an counted)
    (hnone : ∀ d ∈ an.dependences, ¬ Transformation.preventsDistribution d = true) {j k : Nat}
    {x : Symbol} (hcrosses : Stmt.Crosses l.body.statements j k x)
    (htouched : Stmt.TouchedAt a.collector.context l.body.statements k x) :
    Stmt.RenewedBy l.body.statements x := by
  by_contra hrenewed
  have hlasting : ∀ b ∈ an.accesses, b.symbol = x → b.isDeclaration = false := by
    intro b hb hsym
    by_contra hdecl
    exact hrenewed ((renewedBy_iff h.analyzed).mpr ⟨b, hb, hsym, by simpa using hdecl⟩)
  -- the declaration writes the variable as a whole
  obtain ⟨st, hst, d, hd, rfl⟩ := hcrosses.declares
  obtain ⟨e, he, heuse, hetop⟩ :=
    exists_access_at h.analyzed hst (Stmt.uses_of_mem_openDeclarators hd)
  obtain ⟨st', hst', ids, u, hu, hsym⟩ := htouched
  obtain ⟨b, hb, rfl, hbtop⟩ := exists_access_at h.analyzed hst' hu
  have hesym : e.symbol = d.symbol := congrArg Use.symbol heuse
  have hewrite : e.isWrite = true := congrArg Use.isWrite heuse
  have hescalar : e.subscripts = none := congrArg Use.subscripts heuse
  have hbsym : b.symbol = d.symbol := hsym
  -- the later of the two is the source of a dependence that leads back
  obtain hlt | hlt := lt_or_gt_of_ne hcrosses.ne
  · obtain ⟨dep, hdep, rfl, rfl, hforward⟩ := h.exists_forward_of_scalar hb he
      (hbsym.trans hesym.symm) (Or.inr hewrite) (Or.inr hescalar) (hbsym ▸ hlasting)
    refine hnone dep hdep ?_
    simp [Transformation.preventsDistribution, hforward, hetop, hbtop, hlt]
  · obtain ⟨dep, hdep, rfl, rfl, hforward⟩ := h.exists_forward_of_scalar he hb
      (hesym.trans hbsym.symm) (Or.inl hewrite) (Or.inl hescalar) (hesym ▸ hlasting)
    refine hnone dep hdep ?_
    simp [Transformation.preventsDistribution, hforward, hetop, hbtop, hlt]

end AnalyzesLoop

end Analyzer

/-- What an approval to distribute a loop guarantees about scopes. The statements of the body may be
put into loops of their own exactly if none refers to an automatic variable that another one
declares, nor to any variable that another one declares without touching it: in the header of a loop
or where nothing is evaluated. The dependences on automatic variables never stand in the way. -/
theorem Transformation.respectScopes_iff_of_isOk {c : CheckContext} {sel : Selection}
    {status : Status} (h : distribute.check c sel = .ok status) (hok : status.isOk = true) :
    ∃ l an, sel.stmt.forLoop? = some l ∧ c.analyze [l.stmt] = .ok an ∧
      (Stmt.RespectScopes l.body.statements ↔ ∀ j k x, Stmt.RenewedBy l.body.statements x ∨
        ¬ Stmt.TouchedAt c.analyzer.collector.context l.body.statements k x →
          ¬ Stmt.Crosses l.body.statements j k x) ∧
      ∀ d ∈ an.dependences, Stmt.RenewedBy l.body.statements d.source.symbol →
        preventsDistribution d = false := by
  obtain ⟨l, an, fs, hl, -, han, hdep, hwarnings⟩ := exists_of_isOk h hok
  cases hdep
  have hnone := not_of_preventing rfl hwarnings
  obtain ⟨counted, hloop⟩ := Analyzer.exists_analyzesLoop han
  refine ⟨l, an, hl, han, ⟨fun hscopes j k x _ => hscopes j k x, fun hexcept j k x hcrosses => ?_⟩,
    fun d hd hrenewed => ?_⟩
  · -- an approved crossing is one of the two kinds that are excepted
    refine hexcept j k x ?_ hcrosses
    by_cases htouched : Stmt.TouchedAt c.analyzer.collector.context l.body.statements k x
    · exact Or.inl (hloop.renewed_of_crosses hnone hcrosses htouched)
    · exact Or.inr htouched
  · simp [preventsDistribution, hloop.runsForward_eq_false_of_renewed hd hrenewed]

namespace LocalCopy

def declarator : Declarator where
  symbol := 2
  dims := []
  pointer := false
  init := some (.expr (.subscript (.ident 1 .none) (.ident 0 .none) .none))
  storage := .automatic
  span := .none

/-- `for (i = 0; i < 8; i++) { int t = a[i]; b[i] = t; }` -/
def loop : ForLoop where
  header := NestedBound.header 0 0 (.int 8 .none)
  body := .compound [.decl [declarator] ⟨.none, []⟩,
    .expr (.assign .plain (.subscript (.ident 3 .none) (.ident 0 .none) .none) (.ident 2 .none)
      .none) ⟨.none, []⟩] ⟨.none, []⟩
  site := ⟨.none, []⟩

def selection : Selection where
  before := []
  stmt := loop.stmt
  after := []
  depth := 0

def checkContext : CheckContext where
  program := ⟨[], [], .empty⟩
  function := ⟨"copy", 4, [], loop.stmt, .none⟩
  config := ⟨[], false, false, none⟩

def write : Access := ⟨⟨2, true, none, true, .none⟩, [0], 1, 0, 0⟩

def read : Access := ⟨⟨2, false, none, false, .none⟩, [0], 2, 1, 5⟩

theorem crosses : Stmt.Crosses loop.body.statements 0 1 2 where
  ne := Nat.zero_ne_one
  declares := ⟨_, rfl, declarator, List.mem_singleton_self _, rfl⟩
  refers := ⟨_, rfl, by decide⟩

theorem renewed : Stmt.RenewedBy loop.body.statements 2 :=
  ⟨_, List.mem_cons_self, [], declarator, .decl _ (List.mem_singleton_self _) (Or.inr rfl), rfl,
    rfl⟩

theorem mem_dependences {an : DependenceAnalysis} (h : checkContext.analyze [loop.stmt] = .ok an) :
    ⟨write, read, [.eq]⟩ ∈ an.dependences := by
  have hfirst : (checkContext.analyze [loop.stmt]).map (·.dependences[0]?) =
      .ok (some ⟨write, read, [.eq]⟩) := by cbv
  rw [h] at hfirst
  exact List.mem_of_getElem? (Except.ok.inj hfirst)

end LocalCopy

open LocalCopy in
/-- A loop is approved though its second statement uses the variable that the first one declares:
the dependence between the two does not count. -/
theorem Transformation.not_respectScopes_localCopy :
    distribute.check checkContext selection = .ok .clean ∧ Status.clean.isOk = true ∧
      ¬ Stmt.RespectScopes loop.body.statements ∧
      ∃ an, checkContext.analyze [loop.stmt] = .ok an ∧
        ⟨write, read, [.eq]⟩ ∈ an.dependences ∧
        preventsDistribution ⟨write, read, [.eq]⟩ = false := by
  have h : distribute.check checkContext selection = .ok .clean := by cbv
  have hok : Status.clean.isOk = true := rfl
  obtain ⟨l, an, hl, han, hiff, hnone⟩ := respectScopes_iff_of_isOk h hok
  obtain rfl : loop = l := Option.some.inj hl
  have hd := mem_dependences han
  exact ⟨h, hok, fun hscopes => hiff.mp hscopes 0 1 2 (Or.inl renewed) crosses, an, han, hd,
    hnone _ hd renewed⟩

end LoopLegality

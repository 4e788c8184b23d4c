import LoopLegality.Proofs.Dependences
import LoopLegality.Transformation.Check

namespace LoopLegality

namespace PairContext

variable {c : PairContext} {s t : Access} {σ τ : Symbol → Int}

theorem Meets.symm (h : c.Meets s t σ τ) (hsym : s.symbol = t.symbol) : c.Meets t s τ σ where
  sourceEnv := h.sinkEnv
  sinkEnv := h.sourceEnv
  outside y hy := by
    refine (h.outside y fun id hid l hl => hy id ?_ l hl).symm
    simpa only [List.mem_append, or_comm] using hid
  sourceBounds := h.sinkBounds
  sinkBounds := h.sourceBounds
  subscripts a b ha hb hlen hrank := by
    refine (h.subscripts b a hb ha hlen.symm fun n hn => ?_).symm
    rw [← hlen]
    exact hrank n (hsym ▸ hn)

/-- Two instances of accesses to one object that lives on from iteration to iteration, one of them
a write. -/
structure Conflict (c : PairContext) (s t : Access) (σ τ : Symbol → Int) : Prop where
  symbol : s.symbol = t.symbol
  write : s.isWrite = true ∨ t.isWrite = true
  lasting : ∀ a ∈ c.accesses, a.symbol = s.symbol → a.isDeclaration = false
  meets : c.Meets s t σ τ

theorem Conflict.symm (h : c.Conflict s t σ τ) : c.Conflict t s τ σ where
  symbol := h.symbol.symm
  write := h.write.symm
  lasting a ha hsym := h.lasting a ha (hsym.trans h.symbol.symm)
  meets := h.meets.symm h.symbol

theorem privateLoops_eq_zero
    (h : ∀ a ∈ c.accesses, a.symbol = s.symbol → a.isDeclaration = false) :
    c.privateLoops s t = 0 := by
  have hnone : c.declaration? s.symbol = none := by
    refine List.find?_eq_none.mpr fun a ha => ?_
    by_cases hsym : a.symbol = s.symbol
    · simp [h a ha hsym]
    · simp [hsym]
  rw [privateLoops, hnone]

theorem Conflict.privateLoops_eq (h : c.Conflict s t σ τ) : c.privateLoops s t = 0 :=
  privateLoops_eq_zero h.lasting

end PairContext

namespace Direction

theorem mayBeForward_of_admits {d : Direction} {n : Int} (h : d.Admits n) (hn : 0 < n) :
    d.mayBeForward = true ∧ d ≠ .eq := by
  cases d with
  | lt | le | any => exact ⟨rfl, nofun⟩
  | eq | gt | ge =>
    simp only [Admits] at h
    omega

end Direction

namespace Dependence

theorem kind_isTrue {d : Dependence} (h : d.source.isWrite = true ∨ d.sink.isWrite = true) :
    d.kind.isTrue = true := by
  rw [kind, Access.kindTo]
  obtain h | h := h
  · cases d.sink.isWrite <;> simp [h, Kind.ofWrites, Kind.isTrue]
  · cases d.source.isWrite <;> simp [h, Kind.ofWrites, Kind.isTrue]

theorem runsForward_of_admits {d : Dependence} {n : Int} {ns : List Int}
    (hw : d.source.isWrite = true ∨ d.sink.isWrite = true)
    (h : List.Forall₂ Direction.Admits d.direction (n :: ns)) (hn : 0 < n) :
    d.isTrueAt 1 = true ∧ d.runsForward = true := by
  obtain ⟨e, es, hadmits, -, hd⟩ := List.forall₂_cons_right_iff.mp h
  obtain ⟨hf, hne⟩ := Direction.mayBeForward_of_admits hadmits hn
  have hlevel : d.isTrueAt 1 = true := by
    simp [isTrueAt, level, kind_isTrue hw, hd, List.findIdx?_cons, hne]
  exact ⟨hlevel, by simp [runsForward, hlevel, directionAt?, hd, hf]⟩

end Dependence

namespace Analyzer

/-- The analysis of the region that one loop is: its counted form, and each access inside the loop,
at the position of the statement of the body that makes it. -/
structure AnalyzesLoop (a : Analyzer) (r : ForLoop) (an : DependenceAnalysis)
    (counted : CountedLoop) : Prop where
  analyzed : a.analyze [r.stmt] = .ok an
  known : an.loops.get? r.header.id = some counted
  header : (∀ f, r.body.HasLoop f → f.id ≠ r.header.id) →
    CountedLoop.ofHeader? r.header = some counted
  placed : ∀ b ∈ an.accesses, ∃ ids st, b.loops = r.header.id :: ids ∧
    r.body.statements[b.topLevel]? = some st ∧ st.Uses a.collector.context ids .statement b.use

theorem walk_loop {c : Touch.Context} {r : ForLoop} {t tr : Trail}
    (h : Trail.walk c [] r.stmt t = .ok tr) :
    ∃ l gs P, CountedLoop.ofHeader? r.header = some l ∧
      Trail.Walked [l] P r.body.HasLoop { t with loops := t.loops.insert r.header.id l } tr gs ∧
      ∀ g ∈ gs, ∃ j st, r.body.statements[j]? = some st ∧ g.topLevel = j ∧
        ∀ u ∈ g.touches.map Touch.use, ∃ ids,
          g.loops = r.header.id :: ids ∧ st.Uses c ids .statement u := by
  obtain ⟨l, hl, hbody⟩ := Trail.walk_outermost h
  obtain ⟨gs, hw, hplaced⟩ := Trail.walkNumbered_spec [l] 0 _ hbody
  refine ⟨l, gs, _, hl, hw.congr (fun _ _ => Iff.rfl) fun _ => Stmt.hasLoop_of_statements, ?_⟩
  intro g hg
  obtain ⟨j, st, hj, hk, hu⟩ := hplaced (List.cons_ne_nil l []) g hg
  exact ⟨j, st, hj, by simpa using hk, by simpa [CountedLoop.id_of_ofHeader? hl] using hu⟩

theorem exists_analyzesLoop {a : Analyzer} {r : ForLoop} {an : DependenceAnalysis}
    (h : a.analyze [r.stmt] = .ok an) : ∃ counted, a.AnalyzesLoop r an counted := by
  obtain ⟨tr, htr, hset⟩ := Collector.collect_eq_ok (analyze_eq_ok h).1
  have hacc : an.accesses = tr.accesses := congrArg AccessSet.accesses hset
  have hloops : an.loops = tr.loops := congrArg AccessSet.loops hset
  obtain ⟨t₁, hwalk, hrest⟩ := bind_eq_ok.mp htr
  cases hrest
  obtain ⟨l, gs, P, hl, hw, hplaced⟩ := walk_loop hwalk
  obtain ⟨counted, hc⟩ := Option.ne_none_iff_exists'.mp
    (hw.known r.header.id (by simp [IndexMap.get?_insert]))
  refine ⟨counted, h, hloops ▸ hc, fun hunique => ?_, fun b hb => ?_⟩
  · obtain hget | ⟨f, hf, hid, -⟩ := hw.loops _ _ hc
    · rw [IndexMap.get?_insert, if_pos rfl] at hget
      rw [hl, hget]
    · exact (hunique f hf hid).elim
  · obtain ⟨g, hg, ht, hbl, hbt⟩ := Trail.exists_group (hacc ▸ hb)
    obtain ⟨j, st, hj, hk, hu⟩ := hplaced g (by simpa [hw.groups, Trail.empty] using hg)
    obtain ⟨ids, hids, huse⟩ := hu _ (List.mem_map_of_mem ht)
    exact ⟨ids, st, hbl.trans hids, by rw [hbt, hk]; exact hj, huse⟩

/-- Between conflicting instances in two iterations of the loop, a dependence runs forward. -/
theorem AnalyzesLoop.exists_forward {a : Analyzer} {r : ForLoop} {an : DependenceAnalysis}
    {counted : CountedLoop} (h : a.AnalyzesLoop r an counted) {s t : Access}
    (hs : s ∈ an.accesses) (ht : t ∈ an.accesses) {σ τ : Symbol → Int}
    (hc : (a.pairContext [r.stmt] an).Conflict s t σ τ) (hlt : σ counted.index < τ counted.index) :
    ∃ d ∈ an.dependences, d.source = s ∧ d.sink = t ∧ d.isTrueAt 1 = true ∧
      d.runsForward = true := by
  obtain ⟨sids, -, hsl, -⟩ := h.placed s hs
  obtain ⟨tids, -, htl, -⟩ := h.placed t ht
  have hdist : ∃ ns, (a.pairContext [r.stmt] an).distances s t σ τ =
      (τ counted.index - σ counted.index) :: ns := by
    simp only [PairContext.distances, Access.commonLoops, hsl, htl, Access.commonPrefix, if_true,
      List.take_succ_cons, List.map_cons, pairContext, h.known, Option.map_some, Option.getD_some]
    exact ⟨_, rfl⟩
  obtain ⟨ns, hdist⟩ := hdist
  have hpos : 0 < τ counted.index - σ counted.index := by omega
  have hdecl : t.isDeclaration = false := hc.lasting t ht hc.symbol.symm
  have hlex : LexPositive ((a.pairContext [r.stmt] an).distances s t σ τ) :=
    hdist ▸ Or.inl hpos
  obtain ⟨vs, hvs, hiff⟩ := exists_dependence_iff_direction h.analyzed hs ht hc.symbol hc.write
  have hdir := (hc.meets.exists_direction_iff hvs hdecl (Or.inl hlex)).mpr (by
    simp [hc.privateLoops_eq])
  obtain ⟨d, hd, rfl, rfl, hadmits⟩ := (hiff _).mpr hdir
  exact ⟨d, hd, rfl, rfl, Dependence.runsForward_of_admits hc.write (hdist ▸ hadmits) hpos⟩

end Analyzer

namespace Status

theorem isOk_iff {s : Status} : s.isOk = true ↔ ∀ d ∈ s.diagnostics, d.severity = .warning := by
  simp [isOk, hasError]

theorem not_hasFatal_of_isOk {s : Status} (h : s.isOk = true) : s.hasFatal = false := by
  rw [hasFatal, List.any_eq_false]
  intro d hd
  simp [isOk_iff.mp h d hd]

end Status

namespace Transformation

variable {c : CheckContext} {sel : Selection} {l : ForLoop} {t : Transformation} {status : Status}

/-- An approval rests on the shape of the loop and on the dependences of its region. -/
theorem findings_of_isOk (h : t.checkLoop c sel l = .ok status) (hok : status.isOk = true) :
    (∀ d ∈ t.formFindings c sel l, d.severity = .warning) ∧
      ∃ fs, t.regionFindings c sel l = .ok fs ∧ ∀ d ∈ fs, d.severity = .warning := by
  have hfatal := Status.not_hasFatal_of_isOk hok
  rw [checkLoop] at h
  dsimp only at h
  split at h
  · cases h
  · split at h
    · next hp =>
      cases h
      rw [hfatal] at hp
      cases hp
    · split at h
      · next hf =>
        cases h
        rw [hfatal] at hf
        cases hf
      · obtain ⟨fs, hfs, h⟩ := bind_eq_ok.mp h
        cases h
        have hall := Status.isOk_iff.mp hok
        simp only [List.forall_mem_append] at hall
        exact ⟨hall.1.2, fs, hfs, hall.2⟩

theorem severity_locatedAt (o : Obstacle) (s : Span) : (o.locatedAt s).severity = o.severity := by
  rw [Obstacle.locatedAt, Diagnostic.located]
  split <;> rfl

theorem exists_analysis_of_warnings {fs : List Diagnostic}
    (h : t.regionFindings c sel l = .ok fs) (hw : ∀ d ∈ fs, d.severity = .warning) :
    ∃ an, c.analyze [(t.region sel l).stmt] = .ok an ∧ t.dependenceFindings l an = .ok fs := by
  rw [regionFindings] at h
  split at h
  · next an han => exact ⟨an, han, h⟩
  · cases h
    have hsev := hw _ (List.mem_singleton_self _)
    rw [severity_locatedAt] at hsev
    cases hsev
  · cases h

theorem not_of_preventing {an : DependenceAnalysis} {p : Dependence → Bool} {o : Obstacle}
    {place : Dependence → Span} (ho : o.severity = .error)
    (h : ∀ d ∈ preventing an p o place, d.severity = .warning) :
    ∀ d ∈ an.dependences, ¬ p d = true := by
  rw [preventing] at h
  cases hfind : an.dependences.find? p with
  | none => exact List.find?_eq_none.mp hfind
  | some d =>
    have hsev := h (o.locatedAt (place d)) (by simp [hfind])
    rw [severity_locatedAt, ho] at hsev
    cases hsev

/-- Whether a transformation of a loop exchanges two instances, given by their accesses and the
values of the index of the region. -/
def Reorders (l : ForLoop) (s u : Access) (i j : Int) : Transformation → Prop
  | parallelize => i ≠ j
  | distribute => u.topLevel < s.topLevel ∧ i < j
  | fuse => l.body.statements.length ≤ s.topLevel ∧ u.topLevel < l.body.statements.length ∧ i < j
  | _ => False

theorem exists_fusion_of_warnings (hl : sel.stmt.forLoop? = some l)
    (h : ∀ d ∈ fuse.formFindings c sel l, d.severity = .warning) :
    ∃ f, Fusion.ofSelection? sel = some f ∧ f.first = l ∧ fuse.region sel l = f.fused := by
  cases hf : Fusion.ofSelection? sel with
  | none =>
    simp only [formFindings, hf, List.forall_mem_singleton] at h
    cases h
  | some f =>
    refine ⟨f, rfl, ?_, by simp [region, hf]⟩
    simp only [Fusion.ofSelection?, hl, Option.bind_eq_bind, Option.bind_some,
      Option.bind_eq_some_iff, Option.pure_def, Option.some.injEq] at hf
    obtain ⟨_, -, _, -, _, -, rfl⟩ := hf
    rfl

/-- No two conflicting instances in the region of an approved loop are exchanged. -/
theorem not_reorders_of_isOk (h : t.check c sel = .ok status) (hok : status.isOk = true) :
    ∃ l an counted, sel.stmt.forLoop? = some l ∧
      c.analyzer.AnalyzesLoop (t.region sel l) an counted ∧
      (t = .fuse → ∃ f, Fusion.ofSelection? sel = some f ∧ f.first = l ∧
        t.region sel l = f.fused) ∧
      ∀ s ∈ an.accesses, ∀ u ∈ an.accesses, ∀ σ τ,
        (c.analyzer.pairContext [(t.region sel l).stmt] an).Conflict s u σ τ →
        ¬ t.Reorders l s u (σ counted.index) (τ counted.index) := by
  rw [check] at h
  split at h
  · next l hl =>
    obtain ⟨hform, fs, hfs, hw⟩ := findings_of_isOk h hok
    obtain ⟨an, han, hdep⟩ := exists_analysis_of_warnings hfs hw
    obtain ⟨counted, hloop⟩ := Analyzer.exists_analyzesLoop han
    refine ⟨l, an, counted, hl, hloop, ?_, ?_⟩
    · rintro rfl
      exact exists_fusion_of_warnings hl hform
    · intro s hs u hu σ τ hc hre
      cases t with
      | parallelize =>
        cases hdep
        have hnone := not_of_preventing rfl hw
        obtain hlt | hlt := lt_or_gt_of_ne hre
        · obtain ⟨d, hd, -, -, htrue, -⟩ := hloop.exists_forward hs hu hc hlt
          exact hnone d hd htrue
        · obtain ⟨d, hd, -, -, htrue, -⟩ := hloop.exists_forward hu hs hc.symm hlt
          exact hnone d hd htrue
      | distribute =>
        cases hdep
        obtain ⟨d, hd, rfl, rfl, -, hforward⟩ := hloop.exists_forward hs hu hc hre.2
        refine not_of_preventing rfl hw d hd ?_
        simp [preventsDistribution, hforward, hre.1]
      | fuse =>
        cases hdep
        obtain ⟨d, hd, rfl, rfl, -, hforward⟩ := hloop.exists_forward hs hu hc hre.2.2
        refine not_of_preventing rfl hw d hd ?_
        simp [preventsFusion, hforward, hre.1, hre.2.1]
      | _ => exact hre
  · cases h

end Transformation

namespace StridedCopy

def selection : Selection where
  before := []
  stmt := (loop 1).stmt
  after := []
  depth := 0

def checkContext : CheckContext where
  program := ⟨[], [], .empty⟩
  function := ⟨"copy", 2, [], (loop 1).stmt, .none⟩
  config := ⟨[], false, false, none⟩

end StridedCopy

namespace StagedCopy

def copy (t f : Symbol) : Stmt :=
  .expr (.assign .plain (.subscript (.ident t .none) (.ident 0 .none) .none)
    (.subscript (.ident f .none) (.ident 0 .none) .none) .none) ⟨.none, []⟩

def around (id : LoopId) (body : Stmt) : ForLoop :=
  ⟨{ (StridedCopy.loop 1).header with id := id }, body, ⟨.none, []⟩⟩

/-- Copies one array to a second one, and that to a third. -/
def staged : ForLoop := around 0 (.compound [copy 2 1, copy 3 2] ⟨.none, []⟩)

def whole : Selection where
  before := []
  stmt := staged.stmt
  after := []
  depth := 0

def parts : Selection where
  before := []
  stmt := (around 0 (copy 2 1)).stmt
  after := [(around 1 (copy 3 2)).stmt]
  depth := 0

def checkContext : CheckContext where
  program := ⟨[], [], .empty⟩
  function := ⟨"copy", 4, [], staged.stmt, .none⟩
  config := ⟨[], false, false, none⟩

theorem not_hasLoop_body (f : ForHeader) : ¬ staged.body.HasLoop f := by
  intro h
  cases h with
  | item _ hst hl => obtain rfl | rfl := List.mem_pair.mp hst <;> cases hl

end StagedCopy

open StagedCopy in
/-- Even elements are read and odd ones written, so instances that conflict are in one iteration of
the strided copy. Where an array is copied on, no later copy comes before an earlier one that it
conflicts with. -/
theorem Transformation.not_reorders_copies :
    Status.clean.isOk = true ∧
      (parallelize.check StridedCopy.checkContext StridedCopy.selection = .ok .clean ∧
        ∃ an, StridedCopy.checkContext.analyze [(StridedCopy.loop 1).stmt] = .ok an ∧
          ∀ s ∈ an.accesses, ∀ u ∈ an.accesses, ∀ σ τ,
            (StridedCopy.checkContext.analyzer.pairContext [(StridedCopy.loop 1).stmt] an).Conflict
              s u σ τ → σ 0 = τ 0) ∧
      (distribute.check checkContext whole = .ok .clean ∧
        ∃ an, checkContext.analyze [staged.stmt] = .ok an ∧
          ∀ s ∈ an.accesses, ∀ u ∈ an.accesses, ∀ σ τ,
            (checkContext.analyzer.pairContext [staged.stmt] an).Conflict s u σ τ →
            u.topLevel < s.topLevel → τ 0 ≤ σ 0) ∧
      (fuse.check checkContext parts = .ok .clean ∧
        ∃ an, checkContext.analyze [staged.stmt] = .ok an ∧
          ∀ s ∈ an.accesses, ∀ u ∈ an.accesses, ∀ σ τ,
            (checkContext.analyzer.pairContext [staged.stmt] an).Conflict s u σ τ →
            1 ≤ s.topLevel → u.topLevel < 1 → τ 0 ≤ σ 0) := by
  have hok : Status.clean.isOk = true := rfl
  refine ⟨hok, ?_, ?_, ?_⟩
  · have h : parallelize.check StridedCopy.checkContext StridedCopy.selection = .ok .clean := by cbv
    obtain ⟨l, an, c, hl, hloop, -, hsafe⟩ := not_reorders_of_isOk h hok
    obtain rfl : StridedCopy.loop 1 = l := Option.some.inj hl
    obtain rfl : StridedCopy.counted = c := Option.some.inj (hloop.header (by rintro f ⟨⟩))
    exact ⟨h, an, hloop.analyzed, fun s hs u hu σ τ hc =>
      Decidable.not_not.mp (hsafe s hs u hu σ τ hc)⟩
  · have h : distribute.check checkContext whole = .ok .clean := by cbv
    obtain ⟨l, an, c, hl, hloop, -, hsafe⟩ := not_reorders_of_isOk h hok
    obtain rfl : staged = l := Option.some.inj hl
    obtain rfl : StridedCopy.counted = c :=
      Option.some.inj (hloop.header fun f hf => (not_hasLoop_body f hf).elim)
    exact ⟨h, an, hloop.analyzed, fun s hs u hu σ τ hc hlt =>
      not_lt.mp fun hrun => hsafe s hs u hu σ τ hc ⟨hlt, hrun⟩⟩
  · have h : fuse.check checkContext parts = .ok .clean := by cbv
    obtain ⟨l, an, c, hl, hloop, -, hsafe⟩ := not_reorders_of_isOk h hok
    obtain rfl : around 0 (copy 2 1) = l := Option.some.inj hl
    obtain rfl : StridedCopy.counted = c :=
      Option.some.inj (hloop.header fun f hf => (not_hasLoop_body f hf).elim)
    exact ⟨h, an, hloop.analyzed, fun s hs u hu σ τ hc hsecond hfirst =>
      not_lt.mp fun hrun => hsafe s hs u hu σ τ hc ⟨hsecond, hfirst, hrun⟩⟩

end LoopLegality

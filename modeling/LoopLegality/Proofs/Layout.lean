import LoopLegality.Proofs.ErasedGrammar

namespace LoopLegality

@[simps] def Diagnostic.erase (d : Diagnostic) : Diagnostic := { d with span := none }

@[simps] def Status.erase (s : Status) : Status := ⟨s.diagnostics.map Diagnostic.erase⟩

@[simp] theorem Status.hasFatal_erase (s : Status) : s.erase.hasFatal = s.hasFatal := by
  simp [hasFatal, Function.comp_def]

theorem Obstacle.erase_locatedAt (o : Obstacle) (s : Span) :
    o.locatedAt .none = (o.locatedAt s).erase := by
  simp only [locatedAt, Diagnostic.located]
  split
  · split <;> rfl
  · contradiction

namespace Fusion

@[simps] def erase (f : Fusion) : Fusion := ⟨f.first.erase, f.second.erase, f.names⟩

theorem ofSelection?_erase (s : Selection) :
    ofSelection? s.erase = (ofSelection? s).map erase := by
  obtain ⟨before, stmt, after, depth⟩ := s
  cases after with
  | nil => cases h : stmt.forLoop? <;> simp [ofSelection?, Selection.next?, h]
  | cons next after =>
    cases h : stmt.forLoop? with
    | none => simp [ofSelection?, h]
    | some first =>
      cases h' : next.forLoop? with
      | none => simp [ofSelection?, Selection.next?, h, h']
      | some second =>
        cases hn : first.header.unify? second.header <;>
          simp [ofSelection?, Selection.next?, h, h', hn, erase]

theorem fused_erase (f : Fusion) : f.erase.fused = f.fused.erase := by
  have hrename : f.erase.rename = f.rename := rfl
  have hspan : f.erase.span = .none := rfl
  simp [fused, hrename, hspan, Stmt.eraseAll_eq_map, ForLoop.erase, Site.erase]

theorem declaredAtTop_erase (s : Stmt) : declaredAtTop s.erase = declaredAtTop s := by
  simp only [declaredAtTop, Stmt.statements_erase, Stmt.eraseAll_eq_map, List.flatMap_map]
  congr 1
  funext s
  cases s with
  | decl ds s => simp
  | branch c t e s => cases e <;> rfl
  | _ => rfl

theorem nameConflict?_erase (f : Fusion) (t : SymbolTable) :
    f.erase.nameConflict? t.erase = f.nameConflict? t := by
  have hname : t.erase.name = t.name := funext t.name_erase
  simp [nameConflict?, exposedUses, declaredAtTop_erase, hname]

end Fusion

namespace CheckContext

@[simps] def erase (c : CheckContext) : CheckContext :=
  { c with program := c.program.erase, function := c.function.erase }

variable (c : CheckContext)

@[simp] theorem flow_erase : c.erase.flow = c.flow := Flow.ofFunction_erase c.function

theorem analyzer_erase : c.erase.analyzer = c.analyzer.erase := by
  simp [analyzer, Analyzer.erase, symbols]

theorem analyze_erase (stmts : List Stmt) : c.erase.analyze (Stmt.eraseAll stmts) =
    mapResult AnalysisError.erase DependenceAnalysis.erase (c.analyze stmts) := by
  rw [analyze, analyze, analyzer_erase, Analyzer.analyze_erase]

@[simp] theorem envAt_erase (id : LoopId) : c.erase.envAt id = c.envAt id := by
  simp [envAt]

@[simp] theorem isNameVisible_erase (name : String) :
    c.erase.isNameVisible name = c.isNameVisible name := by
  have hglobals (d : Declaration) : d.erase.referenced = d.referenced := by
    simp [Declaration.referenced, List.flatMap_map]
  simp [isNameVisible, mentioned, symbols, List.flatMap_map, hglobals, Function.comp_def]

end CheckContext

theorem interchangeable_erase (i j : Nat) (ds : List Dependence) :
    interchangeable i j (ds.map Dependence.erase) =
      mapResult AnalysisError.erase id (interchangeable i j ds) := by
  induction ds with
  | nil => rfl
  | cons d ds ih =>
    have hkind : d.erase.kind = d.kind := rfl
    simp only [List.map_cons, interchangeable, hkind, Dependence.erase_direction, ih]
    split
    · refine mapResult_bind (g := id) ?_ fun v => ?_
      · rw [Direction.swap]
        split <;> rfl
      · simp only [id_eq]
        split <;> rfl
    · rfl

namespace Transformation

variable (c : CheckContext) (s : Selection) (l : ForLoop)

theorem require_erase (b : Bool) (o : Obstacle) :
    (require b o).map Diagnostic.erase = require b o := by
  cases b <;> rfl

theorem parameterFindings_erase (t : Transformation) : t.parameterFindings c.erase l.erase =
    (t.parameterFindings c l).map Diagnostic.erase := by
  cases t with
  | interchange depth =>
    simp only [parameterFindings, ForLoop.descend?_erase, Option.isSome_map]
    split
    · rfl
    · rw [require_erase]
  | stripMine factor newName =>
    have hname : c.erase.isNameVisible = c.isNameVisible := funext c.isNameVisible_erase
    simp only [parameterFindings, ForLoop.erase_header, CountedLoop.ofHeader?_erase, hname]
    split
    · rfl
    · rw [List.map_append, require_erase]
      cases CountedLoop.ofHeader? l.header with
      | none => rfl
      | some counted => exact congrArg _ (require_erase _ _).symm
  | unroll factor => exact (require_erase _ _).symm
  | tile width height =>
    simp only [parameterFindings]
    split
    · rfl
    · rw [require_erase]
  | parallelize | fuse | distribute => rfl

theorem jumpFindings_erase : jumpFindings l.erase = (jumpFindings l).map Diagnostic.erase := by
  simp only [jumpFindings, ForLoop.erase_body, Stmt.firstJump?_erase]
  cases l.body.firstJump? with
  | none => rfl
  | some j => simp [Stmt.span, Obstacle.erase_locatedAt _ j.site.span]

theorem unrollFinding?_erase (factor : Int) : unrollFinding? c.erase l.erase factor =
    (unrollFinding? c l factor).map Diagnostic.erase := by
  simp only [unrollFinding?, ForLoop.erase_body, Stmt.isEmpty_erase, ForLoop.erase_header,
    CountedLoop.ofHeader?_erase, ForLoop.firstUnsupported?_erase]
  split
  · rfl
  · cases CountedLoop.ofHeader? l.header with
    | none => rfl
    | some counted =>
      simp only [Option.map_some, CountedLoop.erase_id, CheckContext.envAt_erase]
      cases l.firstUnsupported? with
      | some s => simp [Stmt.span, Obstacle.erase_locatedAt _ s.site.span]
      | none =>
        simp only [Option.map_none, CountedLoop.upperBound?_erase, CountedLoop.lowerBound?_erase,
          CountedLoop.erase_index, ForLoop.bodyWrites_erase, CountedLoop.tripCount?_erase]
        split_ifs <;> rfl

theorem fusionFindings_erase (f : Fusion) : fusionFindings c.erase f.erase =
    (fusionFindings c f).map Diagnostic.erase := by
  have hconflict : f.erase.nameConflict? c.erase.symbols = f.nameConflict? c.symbols :=
    f.nameConflict?_erase c.program.symbols
  rw [fusionFindings, fusionFindings, hconflict]
  cases f.nameConflict? c.symbols with
  | some name => rfl
  | none => exact (require_erase _ _).symm

theorem formFindings_erase (t : Transformation) : t.formFindings c.erase s.erase l.erase =
    (t.formFindings c s l).map Diagnostic.erase := by
  cases t with
  | parallelize => exact (require_erase _ _).symm
  | interchange depth =>
    simp only [formFindings, ForLoop.nest_erase, List.length_map, require_erase]
  | fuse =>
    simp only [formFindings, Fusion.ofSelection?_erase]
    cases Fusion.ofSelection? s with
    | none => rfl
    | some f => exact fusionFindings_erase c f
  | distribute =>
    obtain ⟨h, b, site⟩ := l
    cases b with
    | compound ss s => simp [formFindings, Stmt.eraseAll_eq_map, require_erase]
    | branch e y n s => cases n <;> rfl
    | _ => rfl
  | stripMine factor newName => rfl
  | unroll factor =>
    simp only [formFindings, unrollFinding?_erase]
    cases unrollFinding? c l factor <;> rfl
  | tile width height =>
    simp only [formFindings, ForLoop.nest_erase, List.length_map, List.map_append, require_erase,
      ForLoop.erase_site, Site.erase_pragmas]

theorem region_erase (t : Transformation) : t.region s.erase l.erase = (t.region s l).erase := by
  cases t with
  | fuse =>
    simp only [region, Fusion.ofSelection?_erase]
    cases Fusion.ofSelection? s with
    | none => rfl
    | some f => exact f.fused_erase
  | _ => rfl

theorem preventing_erase (a : DependenceAnalysis) {p q : Dependence → Bool} (o : Obstacle)
    {place place' : Dependence → Span} (hp : ∀ d, q d.erase = p d)
    (hplace : ∀ d : Dependence, place' d.erase = .none) :
    preventing a.erase q o place' = (preventing a p o place).map Diagnostic.erase := by
  simp only [preventing, DependenceAnalysis.erase_dependences, List.find?_map]
  have hq : q ∘ Dependence.erase = p := funext hp
  rw [hq]
  cases a.dependences.find? p with
  | none => rfl
  | some d => simp [hplace, Obstacle.erase_locatedAt _ (place d)]

theorem interchangeFindings_erase (a : DependenceAnalysis) (depth : Nat) :
    interchangeFindings a.erase depth = mapResult AnalysisError.erase (List.map Diagnostic.erase)
      (interchangeFindings a depth) := by
  have hspanning : a.erase.dependences.filter (depth < ·.direction.length) =
      (a.dependences.filter (depth < ·.direction.length)).map Dependence.erase := by
    simp [List.filter_map, Function.comp_def]
  rw [interchangeFindings, interchangeFindings, hspanning]
  refine mapResult_bind (interchangeable_erase 0 depth _) fun b => ?_
  exact congrArg Except.ok (require_erase b _).symm

theorem dependenceFindings_erase (a : DependenceAnalysis) (t : Transformation) :
    t.dependenceFindings l.erase a.erase =
      mapResult AnalysisError.erase (List.map Diagnostic.erase) (t.dependenceFindings l a) := by
  cases t with
  | parallelize => exact congrArg Except.ok (preventing_erase a _ (fun _ => rfl) fun _ => rfl)
  | interchange depth => exact interchangeFindings_erase a depth
  | fuse =>
    refine congrArg Except.ok (preventing_erase a _ (fun d => ?_) fun _ => rfl)
    have hlength : l.erase.body.statements.length = l.body.statements.length := by
      simp [Stmt.eraseAll_eq_map]
    rw [preventsFusion, preventsFusion, hlength]
    rfl
  | distribute => exact congrArg Except.ok (preventing_erase a _ (fun _ => rfl) fun _ => rfl)
  | tile width height => exact interchangeFindings_erase a 1
  | stripMine factor newName => rfl
  | unroll factor => rfl

theorem regionFindings_erase (t : Transformation) : t.regionFindings c.erase s.erase l.erase =
    mapResult AnalysisError.erase (List.map Diagnostic.erase) (t.regionFindings c s l) := by
  have hanalyze := c.analyze_erase [(t.region s l).stmt]
  simp only [Stmt.eraseAll] at hanalyze
  rw [regionFindings, regionFindings, region_erase, ForLoop.stmt_erase, hanalyze]
  cases c.analyze [(t.region s l).stmt] with
  | ok a => exact dependenceFindings_erase l a t
  | error e =>
    cases e with
    | unsupported u =>
      exact congrArg (fun d => Except.ok [d]) (Obstacle.erase_locatedAt _ u.span)
    | invalid r => rfl
    | cancelled | overflow => rfl

theorem checkLoop_erase (t : Transformation) : t.checkLoop c.erase s.erase l.erase =
    mapResult AnalysisError.erase Status.erase (t.checkLoop c s l) := by
  have hfatal (ds : List Diagnostic) :
      (⟨ds.map Diagnostic.erase⟩ : Status).hasFatal = (⟨ds⟩ : Status).hasFatal :=
    Status.hasFatal_erase ⟨ds⟩
  simp only [checkLoop, CheckContext.erase_cancelled, parameterFindings_erase, jumpFindings_erase,
    formFindings_erase, ← List.map_append, hfatal]
  split
  · rfl
  · split
    · rfl
    · split
      · rfl
      · refine mapResult_bind (regionFindings_erase c s l t) fun ds => ?_
        rw [← List.map_append]
        rfl

theorem check_erase (t : Transformation) : t.check c.erase s.erase =
    mapResult AnalysisError.erase Status.erase (t.check c s) := by
  simp only [check, Selection.erase_stmt, Stmt.forLoop?_erase]
  cases s.stmt.forLoop? with
  | none => simp [mapResult, AnalysisError.erase, InvalidRequest.erase, Stmt.span, Span.none]
  | some l => exact checkLoop_erase c s l t

end Transformation

/-- Everything that is found about the loops of two functions is equal up to places. Regions
and selections correspond if they differ in their places only. -/
structure CheckContext.SameVerdicts (c c' : CheckContext) : Prop where
  /-- The constants known after the function and at every iteration of each of its loops. -/
  flow : c.flow = c'.flow
  env : ∀ id, c.envAt id = c'.envAt id
  /-- The constants that hold throughout a region. -/
  regionEnv : ∀ (ss ss' : List Stmt) (loops loops' : IndexMap CountedLoop),
    Stmt.eraseAll ss = Stmt.eraseAll ss' →
    loops.mapValues CountedLoop.erase = loops'.mapValues CountedLoop.erase →
    c.analyzer.regionEnv ss loops = c'.analyzer.regionEnv ss' loops'
  accesses : ∀ ss ss' : List Stmt, Stmt.eraseAll ss = Stmt.eraseAll ss' →
    mapResult AnalysisError.erase AccessSet.erase (c.analyzer.collector.collect ss) =
      mapResult AnalysisError.erase AccessSet.erase (c'.analyzer.collector.collect ss')
  dependences : ∀ ss ss' : List Stmt, Stmt.eraseAll ss = Stmt.eraseAll ss' →
    mapResult AnalysisError.erase DependenceAnalysis.erase (c.analyze ss) =
      mapResult AnalysisError.erase DependenceAnalysis.erase (c'.analyze ss')
  loops : (Selection.all c.function).map Selection.erase =
    (Selection.all c'.function).map Selection.erase
  statuses : ∀ (s s' : Selection) (t : Transformation), s.erase = s'.erase →
    mapResult AnalysisError.erase Status.erase (t.check c s) =
      mapResult AnalysisError.erase Status.erase (t.check c' s')

theorem CheckContext.sameVerdicts {c c' : CheckContext} (h : c.erase = c'.erase) :
    c.SameVerdicts c' where
  flow := by rw [← c.flow_erase, h, c'.flow_erase]
  env id := by rw [← c.envAt_erase, h, c'.envAt_erase]
  regionEnv ss ss' loops loops' hss hloops := by
    rw [← c.analyzer.regionEnv_erase, ← c'.analyzer.regionEnv_erase, ← c.analyzer_erase, h,
      c'.analyzer_erase, hss, hloops]
  accesses ss ss' hss := by
    have hcollector (c : CheckContext) :
        c.analyzer.collector.erase = c.erase.analyzer.collector := by
      rw [c.analyzer_erase]
      rfl
    rw [← Collector.collect_erase, ← Collector.collect_erase, hcollector, hcollector, h, hss]
  dependences ss ss' hss := by rw [← c.analyze_erase, ← c'.analyze_erase, h, hss]
  loops := by
    rw [← Selection.all_erase, ← Selection.all_erase]
    exact congrArg (Selection.all ·.function) h
  statuses s s' t hs := by
    rw [← Transformation.check_erase, ← Transformation.check_erase, h, hs]

namespace Program

/-- Layout never decides: two texts whose tokens have the same kinds and lexemes are both
refused, for one reason, or are programs that agree up to places in all that is found about
their functions, under every configuration. -/
theorem sameVerdicts_of_scan {source source' : String}
    (h : (Token.scan source).erase = (Token.scan source').erase) :
    (∃ e e', parse source = .error e ∧ parse source' = .error e' ∧ e.erase = e'.erase) ∨
      ∃ p p', parse source = .ok p ∧ parse source' = .ok p' ∧ p.erase = p'.erase ∧
        List.Forall₂ (fun f f' => ∀ config cancelled,
          CheckContext.SameVerdicts ⟨p, f, config, cancelled⟩ ⟨p', f', config, cancelled⟩)
          p.functions p'.functions := by
  have hparse := parse_erase h
  cases hp : parse source with
  | error e =>
    cases hp' : parse source' with
    | error e' =>
      rw [hp, hp'] at hparse
      exact .inl ⟨e, e', rfl, rfl, Except.error.inj hparse⟩
    | ok p' =>
      rw [hp, hp'] at hparse
      cases hparse
  | ok p =>
    cases hp' : parse source' with
    | error e' =>
      rw [hp, hp'] at hparse
      cases hparse
    | ok p' =>
      rw [hp, hp'] at hparse
      have herase : p.erase = p'.erase := Except.ok.inj hparse
      refine .inr ⟨p, p', rfl, rfl, herase, ?_⟩
      have hfunctions : p.functions.map Function.erase = p'.functions.map Function.erase :=
        congrArg Program.functions herase
      rw [← List.forall₂_eq_eq_eq, List.forall₂_map_left_iff,
        List.forall₂_map_right_iff] at hfunctions
      refine hfunctions.imp fun f f' hf config cancelled => CheckContext.sameVerdicts ?_
      simp [CheckContext.erase, herase, hf]

/-- The same loop on one line and on four, with a comment, a line continuation and a directive
that is skipped. -/
theorem sameVerdicts_of_scan_shift :
    let source := "void f(int a[])\x7bfor(int i=0;i<8;i++)a[i]=a[i+1];\x7d"
    let source' := "#define N 8\nvoid f(int a[]) \x7b\n  for (int i = 0; i < 8; i++) // shift\n" ++
      "    a[i] = \\\n a[i+1];\n\x7d\n"
    (Token.scan source).erase = (Token.scan source').erase ∧ (parse source).isOk ∧
      ((∃ e e', parse source = .error e ∧ parse source' = .error e' ∧ e.erase = e'.erase) ∨
        ∃ p p', parse source = .ok p ∧ parse source' = .ok p' ∧ p.erase = p'.erase ∧
          List.Forall₂ (fun f f' => ∀ config cancelled,
            CheckContext.SameVerdicts ⟨p, f, config, cancelled⟩ ⟨p', f', config, cancelled⟩)
            p.functions p'.functions) := by
  intro source source'
  have h : (Token.scan source).erase = (Token.scan source').erase := by
    rw [Token.Scan.erase, Token.Scan.erase, Token.Scan.mk.injEq]
    decide +kernel
  exact ⟨h, by decide +kernel, sameVerdicts_of_scan h⟩

end Program

end LoopLegality

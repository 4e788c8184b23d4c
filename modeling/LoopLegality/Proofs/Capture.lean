import LoopLegality.Proofs.Unification

namespace LoopLegality

open LoopLegality.Alignment

theorem Alignment.mem_of_renaming? {ps : Alignment} {m m' : IndexMap Symbol}
    (h : renaming? ps m = some m') {x y : Symbol} (hy : m'.get? y = some x) :
    m.get? y = some x ∨ (x, y) ∈ ps := by
  induction ps generalizing m with
  | nil =>
    cases h
    exact Or.inl hy
  | cons p ps ih =>
    obtain ⟨u, v⟩ := p
    rw [renaming?] at h
    split at h
    · split at h
      · exact (ih h).imp_right (List.mem_cons_of_mem _)
      · cases h
    · split at h
      · cases h
      · obtain hget | hmem := ih h
        · rw [IndexMap.get?_insert] at hget
          split at hget
          · next hv =>
            cases hget
            exact Or.inr (hv ▸ List.mem_cons_self)
          · exact Or.inl hget
        · exact Or.inr (List.mem_cons_of_mem _ hmem)

def ForHeader.declared (h : ForHeader) : List Symbol := h.nodes.flatMap Node.declares

theorem ForLoop.mem_referenced {l : ForLoop} {x : Symbol} :
    x ∈ l.stmt.referenced ↔ x ∈ l.header.mentioned ∨ x ∈ l.body.referenced := by
  simp only [Stmt.referenced, mem_ascending, stmt, Stmt.nodes, List.flatMap_append,
    List.mem_append, ForHeader.mentioned]

theorem Stmt.mem_nodes_of_mem_statements {body s : Stmt} {n : Node} (hs : s ∈ body.statements)
    (hn : n ∈ s.nodes) : n ∈ body.nodes := by
  cases body with
  | compound ss _ => exact nodes_subset_nodesOf hs hn
  | _ => exact List.mem_singleton.mp hs ▸ hn

namespace Fusion

variable {f : Fusion} {t : SymbolTable} {x y : Symbol}

theorem get?_names (h : f.first.header.unify? f.second.header = some f.names) :
    (∀ y, y ∈ f.second.header.mentioned ↔ ∃ x, f.names.get? y = some x) ∧
      (∀ x, x ∈ f.first.header.mentioned ↔ ∃ y, f.names.get? y = some x) ∧
      OneToOne f.names := by
  obtain ⟨ps, halign, hnames⟩ := Option.bind_eq_some_iff.mp h
  obtain ⟨hfst, hsnd⟩ := ForHeader.pairs_of_align? halign
  obtain ⟨hps, -, hone⟩ := renaming?_eq_some hnames (by intro y z x hy; cases hy)
  have hmem {x y : Symbol} (hy : f.names.get? y = some x) : (x, y) ∈ ps := by
    obtain hempty | hmem := mem_of_renaming? hnames hy
    · cases hempty
    · exact hmem
  refine ⟨fun y => ⟨fun hy => ?_, fun ⟨x, hx⟩ => ?_⟩, fun x => ⟨fun hx => ?_, fun ⟨y, hy⟩ => ?_⟩,
    hone⟩
  · obtain ⟨p, hp, rfl⟩ := List.mem_map.mp (hsnd ▸ hy)
    exact ⟨p.1, hps p hp⟩
  · exact hsnd ▸ List.mem_map_of_mem (f := Prod.snd) (hmem hx)
  · obtain ⟨p, hp, rfl⟩ := List.mem_map.mp (hfst ▸ hx)
    exact ⟨p.2, hps p hp⟩
  · exact hfst ▸ List.mem_map_of_mem (f := Prod.fst) (hmem hy)

theorem rename_of_notMem (h : f.first.header.unify? f.second.header = some f.names)
    (hx : x ∉ f.second.header.mentioned) : f.rename x = x := by
  have hnone : f.names.get? x = none :=
    Option.eq_none_iff_forall_ne_some.mpr fun y hy => hx (((get?_names h).1 x).mpr ⟨y, hy⟩)
  rw [rename, hnone, Option.getD_none]

/-- The renaming keeps the bindings of the second loop apart exactly if its body uses no binding of
the first header that the second header does not mention. -/
theorem injOn_rename_iff (h : f.first.header.unify? f.second.header = some f.names) :
    Set.InjOn f.rename {x | x ∈ f.second.stmt.referenced} ↔
      ∀ x ∈ f.second.body.referenced, x ∈ f.first.header.mentioned →
        x ∈ f.second.header.mentioned := by
  obtain ⟨hsecond, hfirst, hone⟩ := get?_names h
  have hrename {x y : Symbol} (hy : f.names.get? y = some x) : f.rename y = x := by
    rw [rename, hy, Option.getD_some]
  constructor
  · intro hinj x hx hfx
    obtain ⟨y, hy⟩ := (hfirst x).mp hfx
    have hmem : y ∈ f.second.header.mentioned := (hsecond y).mpr ⟨x, hy⟩
    by_contra hnot
    have hsame : f.rename y = f.rename x := by rw [hrename hy, rename_of_notMem h hnot]
    have hyx := hinj (ForLoop.mem_referenced.mpr (Or.inl hmem))
      (ForLoop.mem_referenced.mpr (Or.inr hx)) hsame
    exact hnot (hyx ▸ hmem)
  · -- a binding that is renamed cannot meet one that stays, which the body uses
    intro hbody
    have hapart {x y : Symbol} (hx : x ∈ f.second.header.mentioned)
        (hy : y ∈ f.second.stmt.referenced) (hnot : y ∉ f.second.header.mentioned) :
        f.rename x ≠ f.rename y := by
      intro hxy
      obtain ⟨u, hu⟩ := (hsecond x).mp hx
      rw [hrename hu, rename_of_notMem h hnot] at hxy
      subst hxy
      have hy' := (ForLoop.mem_referenced.mp hy).resolve_left hnot
      exact hnot (hbody u hy' ((hfirst u).mpr ⟨x, hu⟩))
    intro x hx y hy hxy
    by_cases hhx : x ∈ f.second.header.mentioned <;> by_cases hhy : y ∈ f.second.header.mentioned
    · obtain ⟨u, hu⟩ := (hsecond x).mp hhx
      obtain ⟨v, hv⟩ := (hsecond y).mp hhy
      rw [hrename hu, hrename hv] at hxy
      exact hone x y u hu (hxy ▸ hv)
    · exact absurd hxy (hapart hhx hy hhy)
    · exact absurd hxy.symm (hapart hhy hx hhx)
    · rwa [rename_of_notMem h hhx, rename_of_notMem h hhy] at hxy

/-- What the first loop declares around the second body in the fused loop, innermost first. -/
def around (f : Fusion) : List Symbol :=
  (declaredAtTop f.first.body).reverse ++ f.first.header.declared.reverse

/-- A use in the second body finds, by its spelling in the fused loop, another binding than the one
it is renamed to. -/
def Captured (f : Fusion) (t : SymbolTable) (x : Symbol) : Prop :=
  ∃ y, f.around.find? (t.name · == t.name (f.rename x)) = some y ∧ y ≠ f.rename x

/-- The bindings of two loops stay apart when they are fused. -/
structure KeepsApart (f : Fusion) (t : SymbolTable) : Prop where
  injOn : Set.InjOn f.rename {x | x ∈ f.second.stmt.referenced}
  unlike : ∀ x ∈ f.second.body.referenced, f.names.get? x = none → x ∉ f.second.body.declared →
    ∀ y ∈ f.first.header.declared ++ declaredAtTop f.first.body, t.name y ≠ t.name x

theorem mem_declared_of_declaredAtTop {body : Stmt} (h : x ∈ declaredAtTop body) :
    x ∈ body.declared := by
  obtain ⟨s, hs, hx⟩ := List.mem_flatMap.mp h
  cases s with
  | decl ds site =>
    obtain ⟨d, hd, rfl⟩ := List.mem_map.mp hx
    have hnode : Node.declarator d ∈ (Stmt.decl ds site).nodes :=
      List.mem_flatMap.mpr ⟨d, hd, List.mem_cons_self⟩
    exact mem_ascending.mpr (List.mem_flatMap.mpr
      ⟨.declarator d, Stmt.mem_nodes_of_mem_statements hs hnode, List.mem_singleton_self _⟩)
  | _ => cases hx

/-- A fusion without a name conflict has no exposed use that is spelled like a binding declared
anywhere in the first body. -/
theorem name_ne_of_nameConflict? (h : f.nameConflict? t = none) (hx : x ∈ f.exposedUses)
    (hy : y ∈ f.first.body.declared) : t.name y ≠ t.name x := by
  intro hname
  have hnone := List.find?_eq_none.mp h (t.name y) (List.mem_map_of_mem hy)
  exact hnone (List.any_eq_true.mpr ⟨x, hx, by simp [hname]⟩)

theorem mem_exposedUses (hx : x ∈ f.second.body.referenced) (hd : x ∉ f.second.body.declared) :
    x ∈ f.exposedUses :=
  List.mem_filter.mpr ⟨hx, by simp [hd]⟩

theorem captured_iff_of_notMem (h : f.first.header.unify? f.second.header = some f.names)
    (hconflict : f.nameConflict? t = none) (hx : x ∈ f.second.body.referenced)
    (hsecond : x ∉ f.second.header.mentioned) (hd : x ∉ f.second.body.declared)
    (hfirst : x ∉ f.first.header.declared) :
    f.Captured t x ↔ ∃ y ∈ f.first.header.declared, t.name y = t.name x := by
  have hbody : (declaredAtTop f.first.body).reverse.find? (t.name · == t.name x) = none := by
    simp only [List.find?_eq_none, List.mem_reverse, beq_iff_eq]
    exact fun y hy => name_ne_of_nameConflict? hconflict (mem_exposedUses hx hd)
      (mem_declared_of_declaredAtTop hy)
  rw [Captured, rename_of_notMem h hsecond, around, List.find?_append, hbody, Option.none_or]
  constructor
  · rintro ⟨y, hy, -⟩
    exact ⟨y, by simpa using List.mem_of_find?_eq_some hy, by simpa using List.find?_some hy⟩
  · rintro ⟨y, hy, hname⟩
    have hsome : (f.first.header.declared.reverse.find? (t.name · == t.name x)).isSome :=
      List.find?_isSome.mpr ⟨y, List.mem_reverse.mpr hy, by simp [hname]⟩
    obtain ⟨z, hz⟩ := Option.isSome_iff_exists.mp hsome
    refine ⟨z, hz, ?_⟩
    rintro rfl
    exact hfirst (by simpa using List.mem_of_find?_eq_some hz)

theorem captured_iff_of_rename
    (hone : ∀ y ∈ f.first.header.declared, t.name y = t.name (f.rename x) → y = f.rename x)
    (htop : f.rename x ∉ declaredAtTop f.first.body) :
    f.Captured t x ↔ ∃ y ∈ declaredAtTop f.first.body, t.name y = t.name (f.rename x) := by
  rw [Captured, around, List.find?_append]
  constructor
  · rintro ⟨y, hy, hne⟩
    obtain hy | ⟨-, hy⟩ := Option.or_eq_some_iff.mp hy
    · exact ⟨y, by simpa using List.mem_of_find?_eq_some hy, by simpa using List.find?_some hy⟩
    · refine absurd (hone y ?_ ?_) hne
      · simpa using List.mem_of_find?_eq_some hy
      · simpa using List.find?_some hy
  · rintro ⟨y, hy, hname⟩
    have hsome : ((declaredAtTop f.first.body).reverse.find?
        (t.name · == t.name (f.rename x))).isSome :=
      List.find?_isSome.mpr ⟨y, List.mem_reverse.mpr hy, by simp [hname]⟩
    obtain ⟨z, hz⟩ := Option.isSome_iff_exists.mp hsome
    refine ⟨z, by rw [hz, Option.some_or], ?_⟩
    rintro rfl
    exact htop (by simpa using List.mem_of_find?_eq_some hz)

theorem keepsApart_iff (h : f.first.header.unify? f.second.header = some f.names)
    (hconflict : f.nameConflict? t = none) :
    f.KeepsApart t ↔
      (∀ x ∈ f.second.body.referenced, x ∈ f.first.header.mentioned →
        x ∈ f.second.header.mentioned) ∧
      ∀ x ∈ f.second.body.referenced, x ∉ f.second.header.mentioned →
        x ∉ f.second.body.declared → ∀ y ∈ f.first.header.declared, t.name y ≠ t.name x := by
  have hleft (x : Symbol) : f.names.get? x = none ↔ x ∉ f.second.header.mentioned := by
    rw [(get?_names h).1 x, Option.eq_none_iff_forall_ne_some, not_exists]
  constructor
  · rintro ⟨hinj, hunlike⟩
    refine ⟨(injOn_rename_iff h).mp hinj, fun x hx hs hd y hy => ?_⟩
    exact hunlike x hx ((hleft x).mpr hs) hd y (List.mem_append_left _ hy)
  · rintro ⟨hinj, hunlike⟩
    refine ⟨(injOn_rename_iff h).mpr hinj, fun x hx hs hd y hy => ?_⟩
    obtain hy | hy := List.mem_append.mp hy
    · exact hunlike x hx ((hleft x).mp hs) hd y hy
    · exact name_ne_of_nameConflict? hconflict (mem_exposedUses hx hd)
        (mem_declared_of_declaredAtTop hy)

end Fusion

namespace Transformation

theorem nameConflict?_of_warnings {c : CheckContext} {sel : Selection} {l : ForLoop} {f : Fusion}
    (hf : Fusion.ofSelection? sel = some f)
    (h : ∀ d ∈ fuse.formFindings c sel l, d.severity = .warning) :
    f.nameConflict? c.symbols = none := by
  cases hname : f.nameConflict? c.symbols with
  | none => rfl
  | some name =>
    simp only [formFindings, hf, fusionFindings, hname, List.forall_mem_singleton] at h
    cases h

/-- What an approved fusion keeps apart. No use in the second body finds a declaration of the first
body unless it is renamed. The bindings of the second loop stay apart, and no use finds the first
header instead of its own declaration, exactly if the second body uses no binding of the first
header that the second does not mention, and none from outside that is spelled like a declaration
of the first header. -/
theorem keepsApart_iff_of_isOk {c : CheckContext} {sel : Selection} {status : Status}
    (h : fuse.check c sel = .ok status) (hok : status.isOk = true) :
    ∃ f, Fusion.ofSelection? sel = some f ∧
      (f.KeepsApart c.symbols ↔
        (∀ x ∈ f.second.body.referenced, x ∈ f.first.header.mentioned →
          x ∈ f.second.header.mentioned) ∧
        ∀ x ∈ f.second.body.referenced, x ∉ f.second.header.mentioned →
          x ∉ f.second.body.declared → ∀ y ∈ f.first.header.declared,
            c.symbols.name y ≠ c.symbols.name x) ∧
      (∀ x ∈ f.exposedUses, ∀ y ∈ f.first.body.declared,
        c.symbols.name y ≠ c.symbols.name x) ∧
      (∀ x ∈ f.second.body.referenced, x ∉ f.second.header.mentioned →
        x ∉ f.second.body.declared → x ∉ f.first.header.declared →
          (f.Captured c.symbols x ↔
            ∃ y ∈ f.first.header.declared, c.symbols.name y = c.symbols.name x)) ∧
      ∀ x ∈ f.second.body.referenced,
        (∀ y ∈ f.first.header.declared,
          c.symbols.name y = c.symbols.name (f.rename x) → y = f.rename x) →
        f.rename x ∉ Fusion.declaredAtTop f.first.body →
          (f.Captured c.symbols x ↔ ∃ y ∈ Fusion.declaredAtTop f.first.body,
            c.symbols.name y = c.symbols.name (f.rename x)) := by
  obtain ⟨l, an, fs, hl, hform, -, -, -⟩ := exists_of_isOk h hok
  obtain ⟨f, hf, -, -⟩ := exists_fusion_of_warnings hl hform
  have hunify := Fusion.unify?_eq_some hf
  have hconflict := nameConflict?_of_warnings hf hform
  refine ⟨f, hf, Fusion.keepsApart_iff hunify hconflict, ?_, ?_, ?_⟩
  · exact fun x hx y hy => Fusion.name_ne_of_nameConflict? hconflict hx hy
  · exact fun x hx hs hd hfirst => Fusion.captured_iff_of_notMem hunify hconflict hx hs hd hfirst
  · exact fun x _ hone htop => Fusion.captured_iff_of_rename hone htop

end Transformation

namespace ShadowedIndex

def declare (x : Symbol) : Declarator where
  symbol := x
  dims := []
  pointer := false
  init := some (.expr (.int 0 .none))
  storage := .automatic
  span := .none

/-- `for (int i = 0; i < n; i++) a[i] = e;` -/
def loop (id : LoopId) (i a : Symbol) (e : Expr) : ForLoop where
  header := { NestedBound.header id i (.ident 0 .none) with
    init := some (.decl ⟨[declare i], .none⟩) }
  body := .expr (.assign .plain (.subscript (.ident a .none) (.ident i .none) .none) e .none)
    ⟨.none, []⟩
  site := ⟨.none, []⟩

/-- The second body assigns an outer `i`, whose name is that of the first index. -/
def fusion : Fusion where
  first := loop 0 4 2 (.int 0 .none)
  second := loop 1 5 3 (.ident 1 .none)
  names := (IndexMap.empty.insert 5 4).insert 0 0

def symbols : SymbolTable := ⟨#[⟨"n", .scalar, .none, 0⟩, ⟨"i", .scalar, .none, 0⟩,
  ⟨"a", .array 1, .none, 0⟩, ⟨"b", .array 1, .none, 0⟩, ⟨"i", .scalar, .none, 1⟩,
  ⟨"j", .scalar, .none, 1⟩]⟩

def selection : Selection where
  before := []
  stmt := fusion.first.stmt
  after := [fusion.second.stmt]
  depth := 0

def checkContext : CheckContext where
  program := ⟨[], [], symbols⟩
  function := ⟨"copy", 6, [], .compound [fusion.first.stmt, fusion.second.stmt] ⟨.none, []⟩, .none⟩
  config := ⟨[], false, false, none⟩

end ShadowedIndex

open ShadowedIndex in
/-- Approved, although the outer variable turns into the index. -/
theorem Transformation.captured_shadowedIndex :
    fuse.check checkContext selection = .ok .clean ∧ Status.clean.isOk = true ∧
      Fusion.ofSelection? selection = some fusion ∧ fusion.Captured symbols 1 ∧
      ¬ fusion.KeepsApart symbols := by
  have hcheck : fuse.check checkContext selection = .ok .clean := by cbv
  obtain ⟨f, hf, hapart, -, hcaptured, -⟩ := keepsApart_iff_of_isOk hcheck rfl
  obtain rfl : fusion = f := Option.some.inj hf
  have huse : (1 : Symbol) ∈ fusion.second.body.referenced := by decide
  have hsecond : (1 : Symbol) ∉ fusion.second.header.mentioned := by decide
  have hdeclared : (1 : Symbol) ∉ fusion.second.body.declared := by decide
  have hindex : (4 : Symbol) ∈ fusion.first.header.declared := by decide
  refine ⟨hcheck, rfl, hf, ?_, fun hkeeps => ?_⟩
  · exact (hcaptured 1 huse hsecond hdeclared (by decide)).mpr ⟨4, hindex, rfl⟩
  · exact (hapart.mp hkeeps).2 1 huse hsecond hdeclared 4 hindex rfl

end LoopLegality

import LoopLegality.Proofs.Declarations
import LoopLegality.Proofs.Dependences
import LoopLegality.Proofs.Exhaustive

namespace LoopLegality

theorem nodup_flatten_of_key {α β : Type} (key : β → α) {as : List α} {bss : List (List β)}
    (h : List.Forall₂ (fun a bs => bs.Nodup ∧ ∀ b ∈ bs, key b = a) as bss) (has : as.Nodup) :
    bss.flatten.Nodup := by
  induction h with
  | nil => exact List.nodup_nil
  | cons hab hs ih =>
    obtain ⟨hnodup, hkey⟩ := hab
    obtain ⟨hnot, has⟩ := List.nodup_cons.mp has
    refine List.nodup_append.mpr ⟨hnodup, ih has, fun b hb b' hb' heq => hnot ?_⟩
    obtain ⟨bs, hbs, hb'⟩ := List.mem_flatten.mp hb'
    obtain ⟨a', ha', -, hkey'⟩ := exists_of_mem_right hs hbs
    rwa [← hkey b hb, heq, hkey' b' hb']

theorem nodup_flatMap_of_key {α β : Type} {f : α → List β} (key : β → α) {as : List α}
    (hf : ∀ a ∈ as, (f a).Nodup ∧ ∀ b ∈ f a, key b = a) (h : as.Nodup) :
    (as.flatMap f).Nodup := by
  rw [List.flatMap_def]
  exact nodup_flatten_of_key key (forall₂_map hf) h

theorem Trail.order_of_getElem? {tr : Trail} {i : Nat} {s : Access}
    (h : tr.accesses[i]? = some s) : s.order = i := by
  rw [accesses, List.getElem?_map, Option.map_eq_some_iff] at h
  obtain ⟨⟨f, k⟩, hf, rfl⟩ := h
  obtain ⟨hplaced, rfl⟩ : tr.placed[i]? = some f ∧ i = k := by simpa using hf
  obtain ⟨⟨g, n⟩, -, hmap⟩ := List.mem_flatMap.mp (List.mem_of_getElem? hplaced)
  obtain ⟨touch, -, rfl⟩ := List.mem_map.mp hmap
  rfl

theorem Trail.accesses_sorted (tr : Trail) : tr.accesses.Pairwise (·.order < ·.order) := by
  rw [List.pairwise_iff_getElem]
  intro i j hi hj hij
  rwa [order_of_getElem? (List.getElem?_eq_getElem hi),
    order_of_getElem? (List.getElem?_eq_getElem hj)]

/-- The loop at a depth encloses both places. -/
def Access.Shares (k : Nat) (ls ms : List LoopId) : Prop :=
  k < ls.length ∧ ls.take (k + 1) = ms.take (k + 1)

theorem Access.lt_commonPrefix_iff {ls ms : List LoopId} {k : Nat} :
    k < commonPrefix ls ms ↔ Shares k ls ms := by
  fun_induction commonPrefix ls ms generalizing k with
  | case1 l ls ms ih =>
    cases k with
    | zero => simp [Shares]
    | succ k => simpa [Shares] using ih
  | case2 l ls m ms hne => simp [Shares, hne]
  | case3 ls ms hne =>
    simp only [Nat.not_lt_zero, Shares, false_iff, not_and]
    intro hk htake
    cases ls with
    | nil => simp at hk
    | cons l ls =>
      cases ms with
      | nil => simp at htake
      | cons m ms => exact hne l ls m ms rfl rfl

namespace PairContext

variable {c : PairContext} {s t : Access} {v : List Direction} {vs : List (List Direction)}

/-- The access declares an automatic object for the symbol inside a loop. -/
def Renewal (x : Symbol) (a : Access) : Prop :=
  a.symbol = x ∧ a.isDeclaration = true ∧ a.loops ≠ []

theorem renewal_iff {x : Symbol} {a : Access} :
    (a.symbol == x && a.isDeclaration && !a.loops.isEmpty) = true ↔ Renewal x a := by
  simp [Renewal, and_assoc]

/-- The loop at a depth makes a new object of the symbol for each iteration, around both accesses:
it encloses the first access that declares the symbol inside a loop. -/
def Renews (c : PairContext) (s t : Access) (k : Nat) : Prop :=
  ∃ decl ∈ c.accesses, Renewal s.symbol decl ∧
    (∀ b ∈ c.accesses, Renewal s.symbol b → decl.order ≤ b.order) ∧
    Access.Shares k s.loops decl.loops ∧ Access.Shares k t.loops decl.loops

theorem privateLoops_le_length {p : DependenceProblem} (hp : c.problem? s t = some p)
    (hvs : p.directions = .ok vs) (hv : v ∈ vs) : c.privateLoops s t ≤ v.length := by
  rw [(DependenceProblem.isRefined_of_mem_directions hvs hv).length, depth_of_problem? hp]
  exact c.privateLoops_le s t

/-- A candidate is found by the search, or made up where there is no problem to search. -/
theorem cases_of_mem_candidates (h : c.candidates s t = .ok vs) (hv : v ∈ vs) :
    (∃ p, c.problem? s t = some p ∧ p.IsRefined v) ∨
      c.problem? s t = none ∧ v = List.replicate (c.privateLoops s t) .eq ++
        List.replicate (s.commonLoops t - c.privateLoops s t) .any := by
  cases hp : c.problem? s t with
  | some p =>
    obtain ⟨ws, hws, rfl⟩ := (candidates_of_some hp).mp h
    have hmem := (List.mem_filter.mp hv).1
    exact Or.inl ⟨p, rfl, DependenceProblem.isRefined_of_mem_directions hws hmem⟩
  | none =>
    obtain rfl := Except.ok.inj ((candidates_of_none hp).symm.trans h)
    exact Or.inr ⟨rfl, List.mem_singleton.mp hv⟩

theorem length_of_mem_candidates (h : c.candidates s t = .ok vs) (hv : v ∈ vs) :
    v.length = s.commonLoops t := by
  obtain ⟨p, hp, hrefined⟩ | ⟨-, rfl⟩ := cases_of_mem_candidates h hv
  · exact hrefined.length.trans (depth_of_problem? hp)
  · simpa using Nat.add_sub_of_le (c.privateLoops_le s t)

theorem lead_of_mem_candidates (h : c.candidates s t = .ok vs) (hv : v ∈ vs) {e : Direction}
    (he : v.find? (· != .eq) = some e) : e = .lt ∨ e = .any := by
  have hmem : e ∈ v := List.mem_of_find?_eq_some he
  have hne : e ≠ .eq := by simpa using List.find?_some he
  obtain ⟨p, -, hrefined⟩ | ⟨-, rfl⟩ := cases_of_mem_candidates h hv
  · obtain rfl | rfl | rfl := hrefined.isExact e hmem
    · exact Or.inl rfl
    · exact (hne rfl).elim
    · exact (hrefined.forward he).elim
  · obtain hmem | hmem := List.mem_append.mp hmem
    · exact (hne (List.eq_of_mem_replicate hmem)).elim
    · exact Or.inr (List.eq_of_mem_replicate hmem)

theorem nodup_candidates (h : c.candidates s t = .ok vs) : vs.Nodup := by
  cases hp : c.problem? s t with
  | some p =>
    obtain ⟨ws, hws, rfl⟩ := (candidates_of_some hp).mp h
    have hsorted : ws.Pairwise Direction.VectorLt :=
      (DependenceProblem.refinements_sorted p.depth []).sublist
        (DependenceProblem.directions_sublist hws)
    exact List.Nodup.filter _ (hsorted.imp Direction.VectorLt.ne)
  | none =>
    obtain rfl := Except.ok.inj ((candidates_of_none hp).symm.trans h)
    exact List.nodup_singleton _

theorem nodup_directions (h : c.directions s t = .ok vs) : vs.Nodup := by
  rw [directions_eq_ok] at h
  split at h
  · exact h ▸ List.nodup_nil
  · obtain ⟨ws, hws, rfl⟩ := h
    exact (nodup_candidates hws).filter _

/-- A vector is a candidate. None leads to a declaration, and one for a single iteration leads to
a later access. -/
theorem of_mem_directions (h : c.directions s t = .ok vs) (hv : v ∈ vs) :
    (∃ ws, c.candidates s t = .ok ws ∧ v ∈ ws) ∧ t.isDeclaration = false ∧
      ((∀ e ∈ v, e = .eq) → s.precedes t = true) := by
  rw [directions_eq_ok] at h
  split at h
  · subst h
    cases hv
  · next hguard =>
    obtain ⟨ws, hws, rfl⟩ := h
    rw [Bool.or_eq_true, not_or] at hguard
    refine ⟨⟨ws, hws, (List.mem_filter.mp hv).1⟩, Bool.eq_false_of_not_eq_true hguard.1,
      fun heq => ?_⟩
    obtain ⟨-, hv⟩ := List.mem_filter.mp hv
    simp only [Bool.or_eq_true, Bool.and_eq_true] at hv
    obtain ⟨-, hprecedes⟩ | hany := hv
    · exact hprecedes
    · obtain ⟨e, he, hne⟩ := List.any_eq_true.mp hany
      simp [heq e he] at hne

section Trail

variable {tr : Trail} (hc : c.accesses = tr.accesses)

include hc

theorem nodup_accesses : c.accesses.Nodup := by
  rw [hc]
  refine tr.accesses_sorted.imp fun hlt he => ?_
  rw [he] at hlt
  exact Nat.lt_irrefl _ hlt

theorem first_of_declaration? {x : Symbol} {decl : Access} (h : c.declaration? x = some decl) :
    decl ∈ c.accesses ∧ Renewal x decl ∧
      ∀ b ∈ c.accesses, Renewal x b → decl.order ≤ b.order := by
  obtain ⟨hdecl, before, after, haccesses, hbefore⟩ := List.find?_eq_some_iff_append.mp h
  refine ⟨List.mem_of_find?_eq_some h, renewal_iff.mp hdecl, fun b hb hrenewal => ?_⟩
  have hsorted := tr.accesses_sorted
  rw [← hc, haccesses, List.pairwise_append] at hsorted
  rw [haccesses] at hb
  -- what stands before the access that is found declares nothing, what stands behind is later
  obtain hb | hb := List.mem_append.mp hb
  · have hnot := hbefore b hb
    rw [renewal_iff.mpr hrenewal] at hnot
    cases hnot
  · obtain rfl | hb := List.mem_cons.mp hb
    · exact Nat.le_refl _
    · exact (List.rel_of_pairwise_cons hsorted.2.1 hb).le

theorem declaration?_eq_some_iff {x : Symbol} {decl : Access} :
    c.declaration? x = some decl ↔ decl ∈ c.accesses ∧ Renewal x decl ∧
      ∀ b ∈ c.accesses, Renewal x b → decl.order ≤ b.order := by
  refine ⟨first_of_declaration? hc, ?_⟩
  rintro ⟨hmem, hrenewal, hfirst⟩
  obtain ⟨decl', h⟩ : ∃ decl', c.declaration? x = some decl' :=
    Option.isSome_iff_exists.mp (List.find?_isSome.mpr ⟨decl, hmem, renewal_iff.mpr hrenewal⟩)
  obtain ⟨hmem', hrenewal', hfirst'⟩ := first_of_declaration? hc h
  have horder : decl'.order = decl.order :=
    Nat.le_antisymm (hfirst' decl hmem hrenewal) (hfirst decl' hmem' hrenewal')
  rw [h, Trail.eq_of_order_eq (hc ▸ hmem') (hc ▸ hmem) horder]

theorem lt_privateLoops_iff {k : Nat} : k < c.privateLoops s t ↔ c.Renews s t k := by
  rw [privateLoops, Renews]
  constructor
  · intro hk
    split at hk
    · next decl hdecl =>
      obtain ⟨hmem, hrenewal, hfirst⟩ := (declaration?_eq_some_iff hc).mp hdecl
      rw [lt_min_iff] at hk
      exact ⟨decl, hmem, hrenewal, hfirst, Access.lt_commonPrefix_iff.mp hk.1,
        Access.lt_commonPrefix_iff.mp hk.2⟩
    · cases hk
  · rintro ⟨decl, hmem, hrenewal, hfirst, hs, ht⟩
    rw [(declaration?_eq_some_iff hc).mpr ⟨hmem, hrenewal, hfirst⟩]
    exact lt_min (Access.lt_commonPrefix_iff.mpr hs) (Access.lt_commonPrefix_iff.mpr ht)

theorem nodup_pairs : ((groups c.accesses).flatMap pairs).Nodup := by
  rw [groups, List.flatMap_map]
  refine nodup_flatMap_of_key (fun p => p.1.symbol) (fun x _ => ⟨?_, fun p hp => ?_⟩)
    ((sorted_ascending _).imp Nat.ne_of_lt)
  · have hgroup : (c.accesses.filter (·.symbol == x)).Nodup := (nodup_accesses hc).filter _
    refine nodup_flatMap_of_key Prod.fst (fun s _ => ⟨?_, fun p hp => ?_⟩) hgroup
    · exact (hgroup.filter _).map fun t t' h => congrArg Prod.snd h
    · obtain ⟨t, -, rfl⟩ := List.mem_map.mp hp
      rfl
  · obtain ⟨s, hs, hp⟩ := List.mem_flatMap.mp hp
    obtain ⟨t, -, rfl⟩ := List.mem_map.mp hp
    simpa using (List.mem_filter.mp hs).2

theorem nodup_dependences {ds : List Dependence} (h : c.dependences = .ok ds) : ds.Nodup := by
  obtain ⟨found, hfound, rfl⟩ := dependences_eq_ok.mp h
  refine nodup_flatten_of_key (fun d => (d.source, d.sink)) (hfound.imp ?_) (nodup_pairs hc)
  rintro ⟨s, t⟩ _ ⟨vs, hvs, rfl⟩
  refine ⟨(nodup_directions hvs).map fun v w h => congrArg Dependence.direction h, fun d hd => ?_⟩
  obtain ⟨v, -, rfl⟩ := List.mem_map.mp hd
  rfl

theorem getElem?_of_renews {k : Nat} (h : c.candidates s t = .ok vs) (hv : v ∈ vs)
    (hk : c.Renews s t k) : v[k]? = some .eq := by
  have hlt : k < c.privateLoops s t := (lt_privateLoops_iff hc).mpr hk
  have hlen : k < v.length := by
    rw [length_of_mem_candidates h hv]
    exact hlt.trans_le (c.privateLoops_le s t)
  have hmem : v[k] ∈ v.take (c.privateLoops s t) :=
    List.mem_take_iff_getElem.mpr ⟨k, lt_min hlt hlen, rfl⟩
  rw [List.getElem?_eq_getElem hlen, take_eq_of_mem_candidates h hv _ hmem]

theorem getElem?_of_not_renews {k : Nat} (hp : c.problem? s t = none)
    (h : c.candidates s t = .ok vs) (hv : v ∈ vs) (hk : k < v.length)
    (hnot : ¬ c.Renews s t k) : v[k]? = some .any := by
  rw [← lt_privateLoops_iff hc, not_lt] at hnot
  rw [length_of_mem_candidates h hv] at hk
  obtain ⟨p, hsome, -⟩ | ⟨-, rfl⟩ := cases_of_mem_candidates h hv
  · cases hp.symm.trans hsome
  · rw [List.getElem?_append_right (by simpa using hnot), List.length_replicate,
      List.getElem?_replicate, if_pos (by omega)]

end Trail

end PairContext

theorem Dependence.kind_iff (d : Dependence) :
    (d.kind = .flow ↔ d.source.isWrite = true ∧ d.sink.isWrite = false) ∧
      (d.kind = .anti ↔ d.source.isWrite = false ∧ d.sink.isWrite = true) ∧
      (d.kind = .output ↔ d.source.isWrite = true ∧ d.sink.isWrite = true) := by
  rw [kind, Access.kindTo]
  cases d.source.isWrite <;> cases d.sink.isWrite <;> decide

/-- What holds of every dependence that is reported. -/
structure Dependence.WellFormed (c : PairContext) (d : Dependence) : Prop where
  source : d.source ∈ c.accesses
  sink : d.sink ∈ c.accesses
  symbol : d.source.symbol = d.sink.symbol
  writes : d.source.isWrite = true ∨ d.sink.isWrite = true
  sinkUse : d.sink.isDeclaration = false
  kind : (d.kind = .flow ↔ d.source.isWrite = true ∧ d.sink.isWrite = false) ∧
    (d.kind = .anti ↔ d.source.isWrite = false ∧ d.sink.isWrite = true) ∧
    (d.kind = .output ↔ d.source.isWrite = true ∧ d.sink.isWrite = true)
  /-- The vector has an entry for each loop around both. -/
  length : ∀ k, k < d.direction.length ↔ Access.Shares k d.source.loops d.sink.loops
  forward : ∀ e, d.direction.find? (· != .eq) = some e → e = .lt ∨ e = .any
  independent : (∀ e ∈ d.direction, e = .eq) → d.source.precedes d.sink = true
  renewed : ∀ k, c.Renews d.source d.sink k → d.direction[k]? = some .eq
  /-- Where the subscripts say nothing, any iteration of the other loops may meet any other. -/
  unrefined : c.problem? d.source d.sink = none → ∀ k < d.direction.length,
    ¬ c.Renews d.source d.sink k → d.direction[k]? = some .any

theorem PairContext.wellFormed {c : PairContext} {tr : Trail} (hc : c.accesses = tr.accesses)
    {ds : List Dependence} (h : c.dependences = .ok ds) {d : Dependence} (hd : d ∈ ds) :
    d.WellFormed c := by
  obtain ⟨hsource, hsink, hsymbol, hwrites, vs, hvs, hv⟩ := (mem_dependences h).mp hd
  obtain ⟨⟨ws, hws, hcandidate⟩, hsinkUse, hindependent⟩ := of_mem_directions hvs hv
  exact {
    source := hsource
    sink := hsink
    symbol := hsymbol
    writes := hwrites
    sinkUse := hsinkUse
    kind := d.kind_iff
    length := fun k => by
      rw [length_of_mem_candidates hws hcandidate, Access.commonLoops, Access.lt_commonPrefix_iff]
    forward := fun e => lead_of_mem_candidates hws hcandidate
    independent := hindependent
    renewed := fun k => getElem?_of_renews hc hws hcandidate
    unrefined := fun hp k => getElem?_of_not_renews hc hp hws hcandidate }

theorem Analyzer.wellFormed_of_mem {a : Analyzer} {stmts : List Stmt} {an : DependenceAnalysis}
    (h : a.analyze stmts = .ok an) {d : Dependence} (hd : d ∈ an.dependences) :
    d.WellFormed (a.pairContext stmts an) := by
  obtain ⟨hcollect, hdependences⟩ := analyze_eq_ok h
  obtain ⟨tr, -, hset⟩ := Collector.collect_eq_ok hcollect
  exact PairContext.wellFormed (congrArg AccessSet.accesses hset) hdependences hd

/-- Every dependence of an analyzed region is well formed and none is reported twice. The
declarations that keep the iterations of a loop apart are those of declaration statements, not of
headers, and the entries that they fix are within every vector that the search finds. -/
theorem Analyzer.wellFormed_dependences {a : Analyzer} {stmts : List Stmt}
    {an : DependenceAnalysis} (h : a.analyze stmts = .ok an) :
    (∀ d ∈ an.dependences, d.WellFormed (a.pairContext stmts an)) ∧ an.dependences.Nodup ∧
      (∀ x chain,
        (∃ b ∈ an.accesses, b.symbol = x ∧ b.isDeclaration = true ∧ b.loops = chain) ↔
          ∃ d, Visited stmts chain .statement (.declarator d) ∧ d.symbol = x ∧
            d.storage = .automatic) ∧
      ∀ s t p, (a.pairContext stmts an).problem? s t = some p →
        ∀ vs, p.directions = .ok vs →
          ∀ v ∈ vs, (a.pairContext stmts an).privateLoops s t ≤ v.length := by
  obtain ⟨hcollect, hdependences⟩ := analyze_eq_ok h
  obtain ⟨tr, -, hset⟩ := Collector.collect_eq_ok hcollect
  have hc : (a.pairContext stmts an).accesses = tr.accesses :=
    congrArg AccessSet.accesses hset
  exact ⟨fun d => PairContext.wellFormed hc hdependences,
    PairContext.nodup_dependences hc hdependences,
    fun x chain => Collector.exists_declaration_iff hcollect,
    fun s t p hp vs hvs v => PairContext.privateLoops_le_length hp hvs⟩

namespace EscapedIndex

def declarator : Declarator where
  symbol := 1
  dims := []
  pointer := false
  init := some (.expr (.int 0 .none))
  storage := .automatic
  span := .none

def inner : ForHeader where
  id := 1
  init := some (.decl ⟨[declarator], .none⟩)
  cond := some (.binary .lt (.ident 1 .none) (.int 8 .none) .none)
  incr := some (.unary .postIncr (.ident 1 .none) .none)

/-- `for (i = 0; i < 8; i++) { for (int j = 0; j < 8; j++) p = &j; g(); }` -/
def stmt : Stmt :=
  .forLoop (NestedBound.header 0 0 (.int 8 .none)) (.compound
    [.forLoop inner (.expr (.assign .plain (.ident 2 .none)
        (.unary .addressOf (.ident 1 .none) .none) .none) ⟨.none, []⟩) ⟨.none, []⟩,
      .expr (.call (.ident 3 .none) [] .none) ⟨.none, []⟩] ⟨.none, []⟩) ⟨.none, []⟩

/-- A call may touch the index of the inner loop, whose address is taken. -/
def analyzer : Analyzer where
  symbols := .empty
  calls := ⟨[], [1]⟩
  config := .default

def read : Access := ⟨⟨1, false, none, false, .none⟩, [0], 2, 1, 1⟩

def write : Access := ⟨⟨1, true, none, false, .none⟩, [0], 2, 1, 2⟩

theorem visited_declarator : Visited [stmt] [0] .header (.declarator declarator) := by
  refine ⟨stmt, List.mem_singleton_self _, .body _ _ (.item _ List.mem_cons_self (.clause _ _ ?_))⟩
  exact Or.inl ⟨_, rfl, declarator, List.mem_singleton_self _, Or.inr rfl⟩

end EscapedIndex

open EscapedIndex in
/-- The outer loop encloses both accesses and the declaration of the inner index, and the entry for
it is `*`, since a header declares the index. -/
theorem Analyzer.wellFormed_escapedIndex :
    ∃ an, analyzer.analyze [stmt] = .ok an ∧
      Visited [stmt] [0] .header (.declarator declarator) ∧ declarator.storage = .automatic ∧
      ∃ d ∈ an.dependences, d.source = read ∧ d.sink = write ∧ d.direction = [.any] ∧
        d.WellFormed (analyzer.pairContext [stmt] an) := by
  obtain ⟨an, h⟩ : ∃ an, analyzer.analyze [stmt] = .ok an := ⟨_, rfl⟩
  have hd : ⟨read, write, [.any]⟩ ∈ an.dependences := by
    obtain ⟨hcollect, hds⟩ := analyze_eq_ok h
    cases h
    refine (PairContext.mem_dependences hds).mpr ⟨?_, ?_, rfl, Or.inr rfl, _, rfl, by decide⟩
    · exact List.mem_of_getElem? (i := 1) rfl
    · exact List.mem_of_getElem? (i := 2) rfl
  exact ⟨an, h, visited_declarator, rfl, _, hd, rfl, rfl, rfl, (wellFormed_dependences h).1 _ hd⟩

end LoopLegality

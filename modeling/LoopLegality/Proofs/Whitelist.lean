import LoopLegality.Proofs.DependenceSet
import LoopLegality.Proofs.Origins
import LoopLegality.Proofs.UniformLoop

namespace LoopLegality

namespace Origin

/-- A call of a function that the longer list spares and the shorter one does not. -/
def isSpared (short long : List String) : Origin → Bool
  | touch _ => false
  | call g _ => long.contains g && !short.contains g

def mask (calls : CallSummary) (names : List String) (os : List Origin) : List Bool :=
  os.flatMap fun o => (o.touches calls).map fun _ => !o.isSpared calls.whitelist names

theorem touches_widen {calls : CallSummary} {names : List String}
    (hnames : calls.whitelist ⊆ names) (o : Origin) : o.touches (calls.widen names) =
      if o.isSpared calls.whitelist names then [] else o.touches calls := by
  cases o with
  | touch t => rfl
  | call g s =>
    rw [touches, touches, CallSummary.touchedBy_widen hnames]
    by_cases hlong : g ∈ names <;> by_cases hshort : g ∈ calls.whitelist <;>
      simp [isSpared, CallSummary.touchedBy, hlong, hshort]

theorem not_isDeclaration_of_isSpared {calls : CallSummary} {short long : List String}
    {o : Origin} {t : Touch} (h : o.isSpared short long = true) (ht : t ∈ o.touches calls) :
    t.isDeclaration = false := by
  cases o with
  | touch u => cases h
  | call g s =>
    obtain ⟨x, -, ht⟩ := List.mem_flatMap.mp ht
    simp only [List.mem_cons, List.not_mem_nil, or_false] at ht
    obtain rfl | rfl := ht <;> rfl

end Origin

namespace Access

def moved (a : Access) (order : Nat) : Access := { a with order }

/-- Whether a mask marks the position of an access. -/
def survives (mask : List Bool) (a : Access) : Bool := mask[a.order]? == some true

/-- The access at its position among those that a mask marks. -/
def renumber (mask : List Bool) (a : Access) : Access := a.moved ((mask.take a.order).count true)

/-- What a mask leaves, numbered anew, is what the mask leaves of the numbered list. The mask
extends over `start`, for what comes before. -/
theorem renumber_filter (ps : List (Bool × Access)) (start : List Bool) :
    ((ps.filter (·.1)).zipIdx (start.count true)).map (fun p => p.1.2.moved p.2) =
      (((ps.zipIdx start.length).map fun p => p.1.2.moved p.2).filter
        (survives (start ++ ps.map (·.1)))).map (renumber (start ++ ps.map (·.1))) := by
  induction ps generalizing start with
  | nil => rfl
  | cons p ps ih =>
    obtain ⟨b, a⟩ := p
    have hrest := ih (start ++ [b])
    simp only [List.append_assoc, List.singleton_append, List.length_append,
      List.length_singleton, List.count_append] at hrest
    have hsurvives : (a.moved start.length).survives (start ++ b :: ps.map (·.1)) = b := by
      simp [survives, moved]
    have hrenumber : (a.moved start.length).renumber (start ++ b :: ps.map (·.1)) =
        a.moved (start.count true) := by
      simp [renumber, moved]
    simp only [List.map_cons, List.zipIdx_cons, List.filter_cons, hsurvives]
    cases b with
    | true =>
      simp only [if_true, List.zipIdx_cons, List.map_cons, hrenumber]
      rw [← hrest]
      rfl
    | false => simpa using hrest

end Access

def Dependence.survives (mask : List Bool) (d : Dependence) : Bool :=
  d.source.survives mask && d.sink.survives mask

def Dependence.renumber (mask : List Bool) (d : Dependence) : Dependence :=
  ⟨d.source.renumber mask, d.sink.renumber mask, d.direction⟩

namespace OriginTrail

def marked (calls : CallSummary) (mark : Origin → Bool) (T : OriginTrail) :
    List (Bool × Access) :=
  (T.groups.zipIdx 1).flatMap fun (g, statement) => g.origins.flatMap fun o =>
    (o.touches calls).map fun touch =>
      (mark o, { touch with loops := g.loops, statement, topLevel := g.topLevel, order := 0 })

variable {calls : CallSummary} {names : List String} {T : OriginTrail}

theorem accesses_trail (mark : Origin → Bool) : (T.trail calls).accesses =
    (T.marked calls mark).zipIdx.map fun p => p.1.2.moved p.2 := by
  have hplaced : (T.trail calls).placed = (T.marked calls mark).map fun p => p.2.moved := by
    simp only [marked, trail, Trail.placed, List.zipIdx_map, List.flatMap_map, List.map_flatMap,
      List.map_map, OriginGroup.touched, Prod.map_fst, Prod.map_snd, id_eq, Function.comp_def]
    rfl
  rw [Trail.accesses, hplaced, List.zipIdx_map, List.map_map]
  rfl

theorem origins_eq : T.origins = (T.groups.zipIdx 1).flatMap fun p => p.1.origins := by
  rw [origins, ← List.flatMap_map (f := Prod.fst) (g := OriginGroup.origins), List.zipIdx_map_fst]

theorem map_fst_marked (mark : Origin → Bool) : (T.marked calls mark).map (·.1) =
    T.origins.flatMap fun o => (o.touches calls).map fun _ => mark o := by
  simp only [marked, origins_eq, List.map_flatMap, List.map_map, List.flatMap_assoc,
    Function.comp_def]

theorem touches_accesses :
    (T.trail calls).accesses.map (·.toTouch) = T.origins.flatMap (Origin.touches calls) := by
  have hmarked : (T.trail calls).accesses.map (·.toTouch) =
      (T.marked calls fun _ => true).map (·.2.toTouch) := by
    rw [accesses_trail fun _ => true, List.map_map]
    conv_rhs => rw [← List.zipIdx_map_fst 0 (T.marked calls fun _ => true), List.map_map]
    rfl
  rw [hmarked]
  simp only [marked, origins_eq, List.map_flatMap, List.map_map, List.flatMap_assoc,
    Function.comp_def, List.map_id_fun', id_eq]

theorem filter_marked (hnames : calls.whitelist ⊆ names) :
    (T.marked calls (!·.isSpared calls.whitelist names)).filter (·.1) =
      T.marked (calls.widen names) (!·.isSpared calls.whitelist names) := by
  simp only [marked, List.filter_flatMap, List.filter_map, Function.comp_def,
    Origin.touches_widen hnames]
  refine List.flatMap_congr fun p _ => List.flatMap_congr fun o _ => ?_
  cases o.isSpared calls.whitelist names <;> simp

theorem accesses_widen (hnames : calls.whitelist ⊆ names) :
    (T.trail (calls.widen names)).accesses =
      ((T.trail calls).accesses.filter (Access.survives (Origin.mask calls names T.origins))).map
        (Access.renumber (Origin.mask calls names T.origins)) := by
  rw [accesses_trail (!·.isSpared calls.whitelist names),
    accesses_trail (!·.isSpared calls.whitelist names), ← filter_marked hnames, Origin.mask,
    ← map_fst_marked]
  exact Access.renumber_filter _ []

theorem survives_of_isDeclaration {a : Access} (ha : a ∈ (T.trail calls).accesses)
    (hdecl : a.isDeclaration = true) :
    a.survives (Origin.mask calls names T.origins) = true := by
  rw [accesses_trail (!·.isSpared calls.whitelist names)] at ha
  obtain ⟨⟨p, i⟩, hp, rfl⟩ := List.mem_map.mp ha
  have hi := List.mk_mem_zipIdx_iff_getElem?.mp hp
  rw [Access.survives, Origin.mask, ← map_fst_marked, List.getElem?_map]
  simp only [Access.moved, hi, Option.map_some, beq_iff_eq, Option.some.injEq]
  obtain ⟨⟨g, n⟩, -, hp⟩ := List.mem_flatMap.mp (List.mem_of_getElem? hi)
  obtain ⟨o, -, hp⟩ := List.mem_flatMap.mp hp
  obtain ⟨touch, ht, rfl⟩ := List.mem_map.mp hp
  rw [Bool.not_eq_true']
  by_contra hs
  rw [Bool.not_eq_false] at hs
  have hnot := Origin.not_isDeclaration_of_isSpared hs ht
  exact Bool.false_ne_true (hnot.symm.trans hdecl)

end OriginTrail

theorem flatMap_thin {α α' β β' : Type} {f : α → List β} {f' : α' → List β'} {k : α → Bool}
    {l : β → Bool} {g : α → α'} {h : β → β'} {as : List α}
    (hdrop : ∀ a ∈ as, k a = false → ∀ b ∈ f a, l b = false)
    (hkeep : ∀ a ∈ as, k a = true → f' (g a) = ((f a).filter l).map h) :
    ((as.filter k).map g).flatMap f' = ((as.flatMap f).filter l).map h := by
  induction as with
  | nil => rfl
  | cons a as ih =>
    have hrest := ih (fun b hb => hdrop b (List.mem_cons_of_mem _ hb))
      fun b hb => hkeep b (List.mem_cons_of_mem _ hb)
    rw [List.flatMap_cons, List.filter_append, List.map_append, ← hrest]
    cases hk : k a with
    | true =>
      rw [List.filter_cons_of_pos hk, List.map_cons, List.flatMap_cons,
        hkeep a List.mem_cons_self hk]
    | false =>
      have hnone : (f a).filter l = [] := by
        rw [List.filter_eq_nil_iff]
        intro b hb
        rw [hdrop a List.mem_cons_self hk b hb]
        exact Bool.false_ne_true
      rw [List.filter_cons_of_neg (by rw [hk]; exact Bool.false_ne_true), hnone, List.map_nil,
        List.nil_append]

theorem ascending_eq_filter {ms ns : List Nat} (h : ms ⊆ ns) :
    ascending ms = (ascending ns).filter (ms.contains ·) := by
  apply (sorted_ascending ms).eq_of_mem_iff ((sorted_ascending ns).filter _)
  intro n
  rw [List.mem_filter, mem_ascending, mem_ascending, List.contains_iff_mem]
  exact ⟨fun hn => ⟨h hn, hn⟩, fun hn => hn.2⟩

namespace PairContext

variable {mask : List Bool} {c : PairContext} {s t : Access}

/-- The context of what a mask leaves. -/
def thin (mask : List Bool) (c : PairContext) : PairContext :=
  { c with accesses := (c.accesses.filter (Access.survives mask)).map (Access.renumber mask) }

def pairSurvives (mask : List Bool) (p : Access × Access) : Bool :=
  p.1.survives mask && p.2.survives mask

def pairRenumber (mask : List Bool) (p : Access × Access) : Access × Access :=
  (p.1.renumber mask, p.2.renumber mask)

theorem pairs_thin (mask : List Bool) (group : List Access) :
    pairs ((group.filter (Access.survives mask)).map (Access.renumber mask)) =
      ((pairs group).filter (pairSurvives mask)).map (pairRenumber mask) := by
  apply flatMap_thin
  · intro s _ hs p hp
    obtain ⟨t, -, rfl⟩ := List.mem_map.mp hp
    simp [pairSurvives, hs]
  · intro s _ hs
    simp only [List.filter_map, List.map_map, List.filter_filter, Function.comp_def, pairSurvives,
      hs, Bool.true_and, Bool.and_comm (Access.survives mask _)]
    rfl

theorem groups_thin (mask : List Bool) (as : List Access) :
    (groups ((as.filter (Access.survives mask)).map (Access.renumber mask))).flatMap pairs =
      (((groups as).flatMap pairs).filter (pairSurvives mask)).map (pairRenumber mask) := by
  have hsymbols : ((as.filter (Access.survives mask)).map (Access.renumber mask)).map (·.symbol) =
      (as.filter (Access.survives mask)).map (·.symbol) := by
    rw [List.map_map]
    rfl
  have hsub : (as.filter (Access.survives mask)).map (·.symbol) ⊆ as.map (·.symbol) :=
    List.map_subset _ (List.filter_subset_self _)
  rw [groups, groups, List.flatMap_map, List.flatMap_map, hsymbols, ascending_eq_filter hsub]
  refine (congrArg (List.flatMap _) (List.map_id _).symm).trans (flatMap_thin ?_ ?_)
  · intro x _ hx p hp
    obtain ⟨s, hs, hp⟩ := List.mem_flatMap.mp hp
    obtain ⟨t, -, rfl⟩ := List.mem_map.mp hp
    obtain ⟨hmem, hsymbol⟩ := List.mem_filter.mp hs
    rw [pairSurvives, Bool.and_eq_false_iff]
    refine .inl ?_
    by_contra hsurvives
    rw [Bool.not_eq_false] at hsurvives
    have hleft : x ∈ (as.filter (Access.survives mask)).map (·.symbol) :=
      List.mem_map.mpr ⟨s, List.mem_filter.mpr ⟨hmem, hsurvives⟩, by simpa using hsymbol⟩
    rw [List.contains_iff_mem.mpr hleft] at hx
    cases hx
  · intro x _ _
    rw [id, ← pairs_thin, List.filter_map, List.filter_filter, List.filter_filter]
    simp only [Bool.and_comm (Access.survives mask _)]
    rfl

theorem declaration?_thin (x : Symbol)
    (hdecl : ∀ a ∈ c.accesses, a.isDeclaration = true → a.survives mask = true) :
    (c.thin mask).declaration? x = (c.declaration? x).map (Access.renumber mask) := by
  rw [declaration?, declaration?, thin, List.find?_map, List.find?_filter]
  congr 1
  refine List.find?_congr fun a ha => ?_
  rw [Bool.eq_iff_iff, decide_eq_true_iff]
  refine ⟨fun h => h.2, fun h => ⟨hdecl a ha ?_, h⟩⟩
  rw [Bool.and_eq_true, Bool.and_eq_true] at h
  exact h.1.2

theorem privateLoops_thin
    (hdecl : ∀ a ∈ c.accesses, a.isDeclaration = true → a.survives mask = true) :
    (c.thin mask).privateLoops (s.renumber mask) (t.renumber mask) = c.privateLoops s t := by
  have hd : (c.thin mask).declaration? (s.renumber mask).symbol = _ :=
    declaration?_thin s.symbol hdecl
  rw [privateLoops, privateLoops, hd]
  cases c.declaration? s.symbol <;> rfl

theorem candidates_thin
    (hdecl : ∀ a ∈ c.accesses, a.isDeclaration = true → a.survives mask = true) :
    (c.thin mask).candidates (s.renumber mask) (t.renumber mask) = c.candidates s t := by
  have hproblem : (c.thin mask).problem? (s.renumber mask) (t.renumber mask) = c.problem? s t :=
    rfl
  rw [candidates, candidates, privateLoops_thin hdecl, hproblem]
  rfl

/-- Apart from an access and itself, the positions say nothing that the statements do not. -/
theorem directions_eq {tr : Trail} (hs : s ∈ tr.accesses) (ht : t ∈ tr.accesses) :
    c.directions s t = do
      if t.isDeclaration || (s.commonLoops t == 0 && !s.precedes t) then return []
      return (← c.candidates s t).filter fun v => s.precedes t || v.any (· != .eq) := by
  have hsame : (s.order != t.order && s.precedes t) = s.precedes t := by
    cases hp : s.precedes t with
    | false => rw [Bool.and_false]
    | true => rw [bne_iff_ne.mpr (Trail.order_ne_of_precedes hs ht hp), Bool.true_and]
  simp only [directions, hsame]

/-- The dependences of a pair, none if a test overflows. -/
def found (c : PairContext) (p : Access × Access) : List Dependence :=
  (c.dependencesOf p).toOption.getD []

theorem dependences_eq_flatMap {ds : List Dependence} : c.dependences = .ok ds ↔
    (∀ p ∈ (groups c.accesses).flatMap pairs, c.dependencesOf p = .ok (c.found p)) ∧
      ((groups c.accesses).flatMap pairs).flatMap c.found = ds := by
  have hfound (p : Access × Access) (es : List Dependence) (h : c.dependencesOf p = .ok es) :
      c.found p = es := by simp [found, h, Except.toOption]
  simp only [dependences, bind_eq_ok, pure_eq_ok, mapM_eq_ok_map hfound]
  constructor
  · rintro ⟨_, ⟨hall, rfl⟩, rfl⟩
    exact ⟨hall, List.flatMap_def⟩
  · rintro ⟨hall, rfl⟩
    exact ⟨_, ⟨hall, rfl⟩, List.flatMap_def.symm⟩

theorem dependencesOf_eq_ok {p : Access × Access} {es : List Dependence} :
    c.dependencesOf p = .ok es ↔
      ∃ vs, c.directions p.1 p.2 = .ok vs ∧ vs.map (Dependence.mk p.1 p.2) = es := by
  simp only [dependencesOf, bind_eq_ok, pure_eq_ok]

/-- The dependences of what a mask leaves are those between accesses that are left. -/
theorem dependences_thin {tr tr' : Trail} (hc : c.accesses = tr.accesses)
    (hthin : (c.thin mask).accesses = tr'.accesses)
    (hdecl : ∀ a ∈ c.accesses, a.isDeclaration = true → a.survives mask = true)
    {ds : List Dependence} (h : c.dependences = .ok ds) :
    (c.thin mask).dependences =
      .ok ((ds.filter (Dependence.survives mask)).map (Dependence.renumber mask)) := by
  obtain ⟨hall, rfl⟩ := dependences_eq_flatMap.mp h
  have hleft {s : Access} (hs : s ∈ c.accesses) (hsurvives : s.survives mask = true) :
      s.renumber mask ∈ tr'.accesses :=
    hthin ▸ List.mem_map_of_mem (List.mem_filter.mpr ⟨hs, hsurvives⟩)
  have hgroups : (groups (c.thin mask).accesses).flatMap pairs = _ := groups_thin mask c.accesses
  have hpair : ∀ p ∈ (groups c.accesses).flatMap pairs, pairSurvives mask p = true →
      (c.thin mask).dependencesOf (pairRenumber mask p) =
        .ok (((c.found p).filter (Dependence.survives mask)).map (Dependence.renumber mask)) := by
    rintro ⟨s, t⟩ hp hsurvives
    obtain ⟨hs, ht, -, -⟩ := mem_pairs.mp hp
    obtain ⟨hs', ht'⟩ := Bool.and_eq_true_iff.mp hsurvives
    have hdirections : (c.thin mask).directions (s.renumber mask) (t.renumber mask) =
        c.directions s t := by
      rw [directions_eq (hleft hs hs') (hleft ht ht'), directions_eq (hc ▸ hs) (hc ▸ ht),
        candidates_thin hdecl]
      rfl
    obtain ⟨vs, hvs, hfound⟩ := dependencesOf_eq_ok.mp (hall _ hp)
    refine dependencesOf_eq_ok.mpr ⟨vs, hdirections.trans hvs, ?_⟩
    have hkept : ∀ d ∈ c.found (s, t), d.survives mask = true := by
      rw [← hfound]
      exact List.forall_mem_map.mpr fun v _ => hsurvives
    rw [List.filter_eq_self.mpr hkept, ← hfound, List.map_map]
    rfl
  refine dependences_eq_flatMap.mpr ⟨fun p hp => ?_, ?_⟩
  · rw [hgroups] at hp
    obtain ⟨q, hq, rfl⟩ := List.mem_map.mp hp
    obtain ⟨hq, hsurvives⟩ := List.mem_filter.mp hq
    have h := hpair q hq hsurvives
    simp [found, h, Except.toOption]
  · rw [hgroups]
    refine flatMap_thin (fun p hp hdrop d hd => ?_) fun p hp hsurvives => ?_
    · obtain ⟨vs, -, hfound⟩ := dependencesOf_eq_ok.mp (hall p hp)
      rw [← hfound] at hd
      obtain ⟨v, -, rfl⟩ := List.mem_map.mp hd
      exact hdrop
    · rw [found, hpair p hp hsurvives]
      rfl

end PairContext

namespace Collector

variable {c : Collector} {names : List String} {stmts : List Stmt} {set : AccessSet}

theorem length_le_of_collect (h : c.collect stmts = .ok set) :
    c.cancelled = false ∧
      ∀ n, c.config.maxAccesses = some n → set.accesses.length ≤ n := by
  rw [collect] at h
  dsimp only at h
  cases hc : c.cancelled with
  | true =>
    rw [hc] at h
    cases h
  | false =>
    refine ⟨rfl, fun n hn => ?_⟩
    rw [hc, if_neg Bool.false_ne_true, hn] at h
    obtain ⟨tr, -, h⟩ := bind_eq_ok.mp h
    dsimp only at h
    split at h
    · cases h
    · next hle =>
      cases h
      exact not_lt.mp hle

def widen (c : Collector) (names : List String) : Collector :=
  { c with calls := c.calls.widen names, config := { c.config with whitelist := names } }

/-- A collection that succeeds also does so with a longer list of functions, and walks along the
same trail. -/
theorem collect_widen (hnames : c.calls.whitelist ⊆ names) (h : c.collect stmts = .ok set) :
    ∃ T : OriginTrail, T.origins = Origin.ofStmts c.symbols stmts ∧
      set = ⟨(T.trail c.calls).accesses, T.loops⟩ ∧
      (c.widen names).collect stmts =
        .ok ⟨(T.trail (c.calls.widen names)).accesses, T.loops⟩ := by
  obtain ⟨hcancel, hlimit⟩ := length_le_of_collect h
  obtain ⟨tr, htr, rfl⟩ := collect_eq_ok h
  obtain ⟨T, rfl, hT, hwalk⟩ :=
    Trail.follows_walkNumbered (c := c.context) hnames [] 0 stmts .empty tr htr
  refine ⟨T, hT, rfl, collect_of_walk hcancel hwalk fun n hn => le_trans ?_ (hlimit n hn)⟩
  have haccesses := T.accesses_widen hnames
  calc (T.trail (c.calls.widen names)).accesses.length
      = _ := by rw [haccesses, List.length_map]
    _ ≤ (T.trail c.calls).accesses.length := List.length_filter_le _ _

end Collector

namespace Analyzer

def widen (a : Analyzer) (names : List String) : Analyzer :=
  { a with calls := a.calls.widen names, config := { a.config with whitelist := names } }

/-- For each access whether it is left with the longer list. -/
def mask (a : Analyzer) (names : List String) (stmts : List Stmt) : List Bool :=
  Origin.mask a.calls names (Origin.ofStmts a.symbols stmts)

/-- The accesses are what the origins in the region touch. With a longer list of functions the
analysis still succeeds: those that come from calls of functions new on the list are gone, the
others are numbered anew, and the dependences are those between accesses that are left. -/
theorem analyze_widen {a : Analyzer} {names : List String} {stmts : List Stmt}
    {r : DependenceAnalysis} (hnames : a.calls.whitelist ⊆ names) (h : a.analyze stmts = .ok r) :
    r.accesses.map (·.toTouch) =
        (Origin.ofStmts a.symbols stmts).flatMap (Origin.touches a.calls) ∧
      (a.widen names).analyze stmts = .ok {
        accesses := (r.accesses.filter (Access.survives (a.mask names stmts))).map
          (Access.renumber (a.mask names stmts))
        dependences := (r.dependences.filter (Dependence.survives (a.mask names stmts))).map
          (Dependence.renumber (a.mask names stmts))
        loops := r.loops } := by
  obtain ⟨hset, hdependences⟩ := analyze_eq_ok h
  obtain ⟨T, horigins, hr, hcollect⟩ := Collector.collect_widen hnames hset
  obtain ⟨haccesses, hloops⟩ := AccessSet.mk.inj hr
  have hthin : ((a.pairContext stmts r).thin (a.mask names stmts)).accesses =
      (T.trail (a.calls.widen names)).accesses := by
    rw [T.accesses_widen hnames, horigins]
    exact congrArg _ (congrArg _ haccesses)
  have hdecl : ∀ s ∈ (a.pairContext stmts r).accesses, s.isDeclaration = true →
      s.survives (a.mask names stmts) = true := by
    intro s hs
    rw [mask, ← show T.origins = Origin.ofStmts a.symbols stmts from horigins]
    exact T.survives_of_isDeclaration (haccesses ▸ hs)
  have hleft : (a.widen names).collector.collect stmts =
      .ok ⟨((a.pairContext stmts r).thin (a.mask names stmts)).accesses, r.loops⟩ := by
    rw [hthin, hloops]
    exact hcollect
  refine ⟨?_, bind_eq_ok.mpr ⟨_, hleft, ?_⟩⟩
  · rw [haccesses, T.touches_accesses, horigins]
    rfl
  · have hds := PairContext.dependences_thin haccesses hthin hdecl hdependences
    exact bind_eq_ok.mpr ⟨_, mapError_eq_ok.mpr hds, rfl⟩

end Analyzer

namespace TwoCalls

/-- `for (i = 0; i < 8; i++) { x = i; g(); h(); }` -/
def stmt : Stmt :=
  .forLoop (NestedBound.header 0 0 (.int 8 .none)) (.compound
    [.expr (.assign .plain (.ident 1 .none) (.ident 0 .none) .none) ⟨.none, []⟩,
      .expr (.call (.ident 2 .none) [] .none) ⟨.none, []⟩,
      .expr (.call (.ident 3 .none) [] .none) ⟨.none, []⟩] ⟨.none, []⟩) ⟨.none, []⟩

def info (name : String) (kind : Symbol.Kind) : Symbol.Info := ⟨name, kind, .none, 0⟩

def analyzer : Analyzer where
  symbols := ⟨#[info "i" .scalar, info "x" .scalar, info "g" .function, info "h" .function]⟩
  calls := ⟨[], [1]⟩
  config := { Config.default with whitelist := [] }

def access (symbol : Symbol) (isWrite : Bool) (statement order : Nat) : Access :=
  ⟨⟨symbol, isWrite, none, false, .none⟩, [0], statement, statement - 1, order⟩

end TwoCalls

open TwoCalls in
/-- Of six accesses two go with the calls of `g`, and the accesses of `h` move up. -/
theorem Analyzer.analyze_twoCalls : analyzer.calls.whitelist ⊆ ["g"] ∧
    ∃ r r', analyzer.analyze [stmt] = .ok r ∧ (analyzer.widen ["g"]).analyze [stmt] = .ok r' ∧
      r.accesses.length = 6 ∧
      r'.accesses = [access 1 true 1 0, access 0 false 1 1, access 1 false 3 2, access 1 true 3 3] ∧
      r.dependences.length = 21 ∧ r'.dependences.length = 8 ∧
      r'.dependences = (r.dependences.filter
        (Dependence.survives [true, true, false, false, true, true])).map
          (Dependence.renumber [true, true, false, false, true, true]) := by
  have hnames : analyzer.calls.whitelist ⊆ ["g"] := List.nil_subset _
  obtain ⟨r, h⟩ : ∃ r, analyzer.analyze [stmt] = .ok r := ⟨_, rfl⟩
  refine ⟨hnames, r, _, h, (analyze_widen hnames h).2, ?_⟩
  cases h
  exact ⟨rfl, rfl, rfl, rfl, rfl⟩

end LoopLegality

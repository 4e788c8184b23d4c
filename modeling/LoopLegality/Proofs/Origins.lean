import LoopLegality.Proofs.Walk

namespace LoopLegality

/-- Where touches come from: evaluation touches a binding itself, or it calls a function, and
that touches whatever it can reach. -/
inductive Origin where
  | touch (t : Touch)
  | call (callee : String) (span : Span)

namespace Origin

/-- A call reads and then writes each binding that the function may touch. -/
def touches (calls : CallSummary) : Origin → List Touch
  | touch t => [t]
  | call g s => (calls.touchedBy g).flatMap fun x =>
      [⟨x, false, none, false, s⟩, ⟨x, true, none, false, s⟩]

def scalar (x : Symbol) (isWrite : Bool) (span : Span) : Origin :=
  touch ⟨x, isWrite, none, false, span⟩

def element (e : Expr) (isWrite : Bool) : List Origin :=
  match (Touch.chain e).2.ident? with
  | some x => [touch ⟨x, isWrite, some ((Touch.chain e).1.map Linear.ofExpr?), false, e.span⟩]
  | none => []

variable (t : SymbolTable)

mutual

def ofExpr : Expr → List Origin
  | .ident x s => if t.kind? x = some .function then [] else [scalar x false s]
  | .field o m _ s => ofPlace false o ++ [scalar m false s]
  | .subscript b i s => element (.subscript b i s) false ++ ofIndices b ++ ofExpr i
  | .call f args s => ofExprs args ++ (f.ident?.map fun x => call (t.name x) s).toList
  | .unary op e _ =>
    match op with
    | .preIncr | .preDecr | .postIncr | .postDecr => ofExpr e ++ ofPlace true e
    | .addressOf => ofAddress e
    | _ => ofExpr e
  | .binary _ l r _ => ofExpr l ++ ofExpr r
  | .assign op l r _ =>
    let old := match op with
      | .plain => []
      | .compound _ => ofExpr l
    ofPlace true l ++ old ++ ofExpr r
  | .conditional c y n _ => ofExpr c ++ ofExpr y ++ ofExpr n
  | .cast _ e _ => ofExpr e
  | .comma es _ => ofExprs es
  | _ => []

def ofExprs : List Expr → List Origin
  | [] => []
  | e :: es => ofExpr e ++ ofExprs es

def ofPlace (isWrite : Bool) : Expr → List Origin
  | .ident x s => [scalar x isWrite s]
  | .field o m _ s => ofPlace false o ++ [scalar m isWrite s]
  | .subscript b i s => element (.subscript b i s) isWrite ++ ofIndices b ++ ofExpr i
  | _ => []

def ofIndices : Expr → List Origin
  | .subscript b i _ => ofIndices b ++ ofExpr i
  | _ => []

def ofAddress : Expr → List Origin
  | .subscript b i _ => ofExpr i ++ ofAddress b
  | .field o _ _ _ => ofAddress o
  | _ => []

end

theorem ofExprs_eq (es : List Expr) : ofExprs t es = es.flatMap (ofExpr t) := by
  induction es with
  | nil => rfl
  | cons e es ih => rw [ofExprs, ih, List.flatMap_cons]

def ofDeclarator (d : Declarator) : List Origin :=
  ofExprs t (d.dims.filterMap id) ++
    [touch ⟨d.symbol, true, none, d.storage == .automatic, d.span⟩] ++
    ofExprs t ((d.init.map Initializer.exprs).getD [])

mutual

def ofStmt : Stmt → List Origin
  | .decl ds _ => ds.flatMap (ofDeclarator t)
  | .expr e _ => ofExpr t e
  | .compound ss _ => ofStmts ss
  | .branch c y none _ => ofExpr t c ++ ofStmt y
  | .branch c y (some n) _ => ofExpr t c ++ (ofStmt y ++ ofStmt n)
  | .forLoop _ b _ => ofStmt b
  | _ => []

def ofStmts : List Stmt → List Origin
  | [] => []
  | s :: ss => ofStmt s ++ ofStmts ss

end

end Origin

/-- Only the functions on the list change. -/
def CallSummary.widen (s : CallSummary) (names : List String) : CallSummary :=
  { s with whitelist := names }

theorem CallSummary.touchedBy_widen {s : CallSummary} {names : List String}
    (hnames : s.whitelist ⊆ names) (g : String) :
    (s.widen names).touchedBy g = if g ∈ names then [] else s.touchedBy g := by
  by_cases hg : g ∈ names
  · simp [touchedBy, widen, hg]
  · have hold : g ∉ s.whitelist := fun hmem => hg (hnames hmem)
    simp [touchedBy, widen, hg, hold]

namespace Touch

def Context.widen (c : Context) (names : List String) : Context :=
  { c with calls := c.calls.widen names }

/-- These are the touches of the origins, and with a longer list of functions the collection gives
theirs too. -/
def Traces (c : Context) (names : List String) (r : Context → Result) (os : List Origin)
    (ts : List Touch) : Prop :=
  ts = os.flatMap (Origin.touches c.calls) ∧
    r (c.widen names) = .ok (os.flatMap (Origin.touches (c.calls.widen names)))

/-- Where collection succeeds it gives the touches of the origins, and it does the same with a
longer list of functions. -/
def Follows (c : Context) (names : List String) (r : Context → Result) (os : List Origin) :
    Prop :=
  ∀ ts, r c = .ok ts → Traces c names r os ts

variable {c : Context} {names : List String} {r r' r'' : Context → Result}
  {os os' os'' : List Origin}

theorem callEffects_eq_ok {s : Span} {xs : List Symbol} {ts : List Touch}
    (h : callEffects c s xs = .ok ts) :
    ts = xs.flatMap fun x => [⟨x, false, none, false, s⟩, ⟨x, true, none, false, s⟩] := by
  induction xs generalizing ts with
  | nil =>
    cases h
    rfl
  | cons x xs ih =>
    obtain ⟨us, hus, h⟩ := bind_eq_ok.mp h
    obtain ⟨vs, hvs, h⟩ := bind_eq_ok.mp h
    obtain ⟨ws, hws, h⟩ := bind_eq_ok.mp h
    cases h
    rw [one_eq_ok hus, one_eq_ok hvs, ih hws]
    rfl

theorem callEffects_widen (s : Span) (xs : List Symbol) :
    callEffects (c.widen names) s xs = callEffects c s xs := by
  induction xs with
  | nil => rfl
  | cons x xs ih =>
    rw [callEffects, callEffects, ih]
    rfl

namespace Follows

theorem nil : Follows c names (fun _ => .ok []) [] := by
  intro ts h
  cases h
  exact ⟨rfl, rfl⟩

theorem refuse (cause : Context → Unsupported.Cause) (s : Span) (os : List Origin) :
    Follows c names (fun c => Touch.refuse (cause c) s) os := by
  intro ts h
  cases h

theorem one (t : Touch) : Follows c names (fun c => Touch.one c t) [.touch t] := by
  intro ts h
  obtain rfl := one_eq_ok h
  exact ⟨rfl, h⟩

theorem callEffects (hnames : c.calls.whitelist ⊆ names) (g : String) (s : Span) :
    Follows c names (fun c => Touch.callEffects c s (c.calls.touchedBy g)) [.call g s] := by
  intro ts h
  rw [Traces, List.flatMap_singleton, List.flatMap_singleton, Origin.touches, Origin.touches]
  refine ⟨callEffects_eq_ok h, ?_⟩
  have htouched := CallSummary.touchedBy_widen hnames g
  by_cases hg : g ∈ names
  · rw [if_pos hg] at htouched
    rw [htouched]
    exact congrArg (Touch.callEffects _ s) htouched
  · rw [if_neg hg] at htouched
    rw [htouched]
    calc Touch.callEffects (c.widen names) s ((c.calls.widen names).touchedBy g)
        = Touch.callEffects c s (c.calls.touchedBy g) := by rw [htouched, callEffects_widen]
      _ = .ok ts := h
      _ = _ := by rw [callEffects_eq_ok h]

theorem append (h : Follows c names r os) (h' : Follows c names r' os') :
    Follows c names (fun c => do return (← r c) ++ (← r' c)) (os ++ os') := by
  intro ts hts
  obtain ⟨us, hus, hts⟩ := bind_eq_ok.mp hts
  obtain ⟨us', hus', hts⟩ := bind_eq_ok.mp hts
  cases hts
  obtain ⟨rfl, hr⟩ := h us hus
  obtain ⟨rfl, hr'⟩ := h' us' hus'
  rw [Traces, List.flatMap_append, List.flatMap_append]
  exact ⟨rfl, bind_eq_ok.mpr ⟨_, hr, bind_eq_ok.mpr ⟨_, hr', rfl⟩⟩⟩

theorem append₃ (h : Follows c names r os) (h' : Follows c names r' os')
    (h'' : Follows c names r'' os'') :
    Follows c names (fun c => do return (← r c) ++ (← r' c) ++ (← r'' c)) (os ++ os' ++ os'') := by
  simpa only [bind_assoc, pure_bind] using (h.append h').append h''

end Follows

def Task.origins (t : SymbolTable) : Task → List Origin
  | touch x w is s => [.touch ⟨x, w, is, false, s⟩]
  | effects s g => [.call g s]
  | expr e => Origin.ofExpr t e
  | indices e => Origin.ofIndices t e
  | target e => Origin.ofPlace t true e
  | owner e => Origin.ofPlace t false e
  | address e => Origin.ofAddress t e

namespace Task

variable {p : Task} {qs : List Task}

theorem origins_of_subscript? {b i : Expr} {s : Span} {w : Bool}
    (h : subscript? c b i s w = some qs) :
    Origin.ofPlace c.symbols w (.subscript b i s) = qs.flatMap (origins c.symbols) := by
  obtain ⟨x, hx, rfl⟩ := Option.map_eq_some_iff.mp h
  have hb : (chain (.subscript b i s)).2.ident? = some x := ident?_of_array? hx
  simp [Origin.ofPlace, Origin.element, hb, origins, Expr.span]

theorem origins_eq (h : p.steps? c = some qs) (hp : ∀ s g, p ≠ effects s g) :
    p.origins c.symbols = qs.flatMap (origins c.symbols) := by
  cases p with
  | touch => cases h
  | effects s g => exact absurd rfl (hp s g)
  | expr e =>
    cases e with
    | subscript => exact origins_of_subscript? h
    | ident x s =>
      cases h
      simp only [origins, Origin.ofExpr]
      split <;> rfl
    | call f args s =>
      obtain ⟨x, hx, rfl⟩ := Option.map_eq_some_iff.mp h
      simp [origins, Origin.ofExpr, Origin.ofExprs_eq, hx, List.flatMap_map]
    | unary op e s => cases op <;> cases h <;> simp [origins, Origin.ofExpr]
    | assign op l r s => cases op <;> cases h <;> simp [origins, Origin.ofExpr]
    | comma es s =>
      cases h
      simp [origins, Origin.ofExpr, Origin.ofExprs_eq, List.flatMap_map]
    | _ =>
      cases h
      simp [origins, Origin.ofExpr, Origin.scalar]
  | indices e => cases e <;> cases h <;> simp [origins, Origin.ofIndices]
  | target e =>
    cases e with
    | subscript => exact origins_of_subscript? h
    | _ => cases h <;> simp [origins, Origin.ofPlace, Origin.scalar]
  | owner e =>
    cases e with
    | subscript => exact origins_of_subscript? h
    | _ => cases h <;> simp [origins, Origin.ofPlace, Origin.scalar]
  | address e => cases e <;> cases h <;> simp [origins, Origin.ofAddress]

theorem steps?_widen (hp : ∀ s g, p ≠ effects s g) : p.steps? (c.widen names) = p.steps? c := by
  cases p with
  | effects s g => exact absurd rfl (hp s g)
  | _ => rfl

theorem traces_flatten {tss : List (List Touch)}
    (h : List.Forall₂ (fun q => Traces c names (q.run ·) (q.origins c.symbols)) qs tss) :
    Traces c names (runAll · qs) (qs.flatMap (origins c.symbols)) tss.flatten := by
  induction h with
  | nil => exact ⟨rfl, rfl⟩
  | cons hq _ ih =>
    obtain ⟨rfl, hrun⟩ := hq
    obtain ⟨hflat, hall⟩ := ih
    refine ⟨by simp [hflat], ?_⟩
    rw [List.flatMap_cons, List.flatMap_append]
    exact bind_eq_ok.mpr ⟨_, hrun, bind_eq_ok.mpr ⟨_, hall, rfl⟩⟩

end Task

theorem follows_run (hnames : c.calls.whitelist ⊆ names) (p : Task) :
    Follows c names (p.run ·) (p.origins c.symbols) := by
  refine Task.induction (P := fun p => Traces c names (p.run ·) (p.origins c.symbols)) ?_ ?_ p
  · exact fun x w is s h => ⟨rfl, h⟩
  · intro p qs tss hrun hqs htss
    by_cases hp : ∃ s g, p = .effects s g
    · obtain ⟨s, g, rfl⟩ := hp
      exact Follows.callEffects hnames g s _ hrun
    · have hp (s : Span) (g : String) (he : p = .effects s g) : False := hp ⟨s, g, he⟩
      obtain ⟨hflat, hall⟩ := Task.traces_flatten htss
      rw [Task.origins_eq hqs hp]
      refine ⟨hflat, (Task.run_eq_ok_iff ?_).mpr ⟨qs, (Task.steps?_widen hp).trans hqs, hall⟩⟩
      rintro x w is s rfl
      cases hqs

theorem follows_ofExpr (hnames : c.calls.whitelist ⊆ names) (e : Expr) :
    Follows c names (ofExpr · e) (Origin.ofExpr c.symbols e) :=
  follows_run hnames (.expr e)

theorem follows_ofExprs (hnames : c.calls.whitelist ⊆ names) (es : List Expr) :
    Follows c names (ofExprs · es) (Origin.ofExprs c.symbols es) := by
  induction es with
  | nil => exact .nil
  | cons e es ih => exact (follows_ofExpr hnames e).append ih

theorem follows_ofDeclarator (hnames : c.calls.whitelist ⊆ names) (d : Declarator) :
    Follows c names (ofDeclarator · d) (Origin.ofDeclarator c.symbols d) := by
  cases hd : d.pointer with
  | true =>
    intro ts h
    replace h : ofDeclarator c d = .ok ts := h
    rw [ofDeclarator, hd] at h
    cases h
  | false =>
    have hparts := (follows_ofExprs hnames (d.dims.filterMap id)).append₃
      (.one ⟨d.symbol, true, none, d.storage == .automatic, d.span⟩)
      (follows_ofExprs hnames ((d.init.map Initializer.exprs).getD []))
    simp only [Follows, ofDeclarator, hd, Bool.false_eq_true, if_false]
    exact hparts

theorem follows_ofDeclarators (hnames : c.calls.whitelist ⊆ names) (ds : List Declarator) :
    Follows c names (ofDeclarators · ds) (ds.flatMap (Origin.ofDeclarator c.symbols)) := by
  induction ds with
  | nil => exact .nil
  | cons d ds ih => exact (follows_ofDeclarator hnames d).append ih

theorem follows_ofStatementExpr (hnames : c.calls.whitelist ⊆ names) (e : Expr) (s : Span) :
    Follows c names (ofStatementExpr · e s) (Origin.ofExpr c.symbols e) := by
  cases e with
  | assign | call => exact follows_ofExpr hnames _
  | unary op e s' =>
    cases op with
    | preIncr | preDecr | postIncr | postDecr => exact follows_ofExpr hnames _
    | _ => exact .refuse _ _ _
  | _ => exact .refuse _ _ _

end Touch

structure OriginGroup where
  loops : List LoopId
  topLevel : Nat
  origins : List Origin

def OriginGroup.touched (calls : CallSummary) (g : OriginGroup) : TouchGroup :=
  ⟨g.loops, g.topLevel, g.origins.flatMap (Origin.touches calls)⟩

/-- What a walk has met, before it is known what calls touch. -/
structure OriginTrail where
  groups : List OriginGroup
  loops : IndexMap CountedLoop
  topLevel : Nat

namespace OriginTrail

def empty : OriginTrail := ⟨[], .empty, 0⟩

def origins (T : OriginTrail) : List Origin := T.groups.flatMap (·.origins)

def trail (calls : CallSummary) (T : OriginTrail) : Trail :=
  ⟨T.groups.map (·.touched calls), T.loops, T.topLevel⟩

def add (T : OriginTrail) (nest : List CountedLoop) (os : List Origin) : OriginTrail :=
  { T with groups := T.groups ++ [⟨nest.map (·.id), T.topLevel, os⟩] }

theorem origins_add (T : OriginTrail) (nest : List CountedLoop) (os : List Origin) :
    (T.add nest os).origins = T.origins ++ os := by
  simp [origins, add]

theorem trail_add (calls : CallSummary) (T : OriginTrail) (nest : List CountedLoop)
    (os : List Origin) :
    (T.add nest os).trail calls =
      (T.trail calls).add nest (os.flatMap (Origin.touches calls)) := by
  simp [trail, add, Trail.add, OriginGroup.touched]

end OriginTrail

namespace Trail

/-- A walk that succeeds adds the origins, and it does the same with a longer list of
functions. -/
def Follows (c : Touch.Context) (names : List String)
    (w : Touch.Context → Trail → Except Unsupported Trail) (os : List Origin) : Prop :=
  ∀ T t', w c (OriginTrail.trail c.calls T) = .ok t' → ∃ T' : OriginTrail,
    t' = T'.trail c.calls ∧ T'.origins = T.origins ++ os ∧
      w (c.widen names) (T.trail (c.calls.widen names)) = .ok (T'.trail (c.calls.widen names))

variable {c : Touch.Context} {names : List String} {nest : List CountedLoop}
  {w w' : Touch.Context → Trail → Except Unsupported Trail} {os os' : List Origin}

namespace Follows

theorem refl : Follows c names (fun _ => .ok) [] := by
  intro T t' h
  cases h
  exact ⟨T, rfl, (List.append_nil _).symm, rfl⟩

theorem trans (h : Follows c names w os) (h' : Follows c names w' os') :
    Follows c names (fun c t => do w' c (← w c t)) (os ++ os') := by
  intro T t' ht
  obtain ⟨u, hu, ht⟩ := bind_eq_ok.mp ht
  obtain ⟨U, rfl, hU, hw⟩ := h T u hu
  obtain ⟨T', rfl, hT', hw'⟩ := h' U t' ht
  refine ⟨T', rfl, ?_, bind_eq_ok.mpr ⟨_, hw, hw'⟩⟩
  rw [hT', hU, List.append_assoc]

theorem addThen {r : Touch.Context → Touch.Result}
    (h : Touch.Follows (contextIn c nest) names r os) (h' : Follows c names w os') :
    Follows c names (fun c t => do w c (t.add nest (← r (contextIn c nest)))) (os ++ os') := by
  intro T t' ht
  obtain ⟨ts, hts, ht⟩ := bind_eq_ok.mp ht
  obtain ⟨rfl, hr⟩ := h ts hts
  have hadd (calls : CallSummary) := T.trail_add calls nest os
  obtain ⟨T', rfl, hT', hw⟩ := h' (T.add nest os) t' (by rw [hadd]; exact ht)
  refine ⟨T', rfl, by rw [hT', OriginTrail.origins_add, List.append_assoc], ?_⟩
  rw [hadd] at hw
  exact bind_eq_ok.mpr ⟨_, hr, hw⟩

theorem add {r : Touch.Context → Touch.Result}
    (h : Touch.Follows (contextIn c nest) names r os) :
    Follows c names (fun c t => do return t.add nest (← r (contextIn c nest))) os := by
  have hadd := addThen h (refl (c := c))
  rwa [List.append_nil] at hadd

theorem note {f : Trail → Trail} {F : OriginTrail → OriginTrail}
    (hf : ∀ calls T, f (OriginTrail.trail calls T) = (F T).trail calls)
    (hF : ∀ T, (F T).origins = T.origins) (h : Follows c names w os) :
    Follows c names (fun c t => w c (f t)) os := by
  intro T t' ht
  dsimp only at ht ⊢
  rw [hf] at ht ⊢
  rw [← hF T]
  exact h (F T) t' ht

theorem congr (h : Follows c names w os) (hw : ∀ c t, w' c t = w c t) :
    Follows c names w' os := by
  have heq : w' = w := by
    funext c t
    exact hw c t
  rwa [heq]

end Follows

mutual

theorem follows_walk (hnames : c.calls.whitelist ⊆ names) (nest : List CountedLoop) : ∀ s : Stmt,
    Follows c names (walk · nest s) (Origin.ofStmt c.symbols s)
  | .null _ => .refl
  | .decl ds _ => .add (Touch.follows_ofDeclarators (c := contextIn c nest) hnames ds)
  | .expr e _ => .add (Touch.follows_ofStatementExpr (c := contextIn c nest) hnames e _)
  | .compound ss _ => follows_walkAll hnames nest ss
  | .branch e y none _ =>
    .addThen (Touch.follows_ofExpr (c := contextIn c nest) hnames e) (follows_walk hnames nest y)
  | .branch e y (some n) _ =>
    .addThen (Touch.follows_ofExpr (c := contextIn c nest) hnames e)
      ((follows_walk hnames nest y).trans (follows_walk hnames nest n))
  | .forLoop f b s => by
    cases hl : CountedLoop.ofHeader? f with
    | none =>
      intro T t' h
      replace h : walk c nest (.forLoop f b s) (T.trail c.calls) = .ok t' := h
      rw [walk, hl] at h
      cases h
    | some l =>
      by_cases hn : nest.isEmpty = true
      · have hbody := follows_walk hnames [l] b
        cases b with
        | compound ss s' =>
          refine ((follows_walkNumbered hnames [l] 0 ss).note
            (f := fun t => { t with loops := t.loops.insert f.id l })
            (F := fun T => { T with loops := T.loops.insert f.id l })
            (fun _ _ => rfl) fun _ => rfl).congr fun c t => ?_
          simp [walk, hl, hn]
        | _ =>
          refine (hbody.note
            (f := fun t => { t with loops := t.loops.insert f.id l, topLevel := 0 })
            (F := fun T => { T with loops := T.loops.insert f.id l, topLevel := 0 })
            (fun _ _ => rfl) fun _ => rfl).congr fun c t => ?_
          conv =>
            lhs
            rw [walk, hl]
          simp only [hn, if_true]
      · refine ((follows_walk hnames (nest ++ [l]) b).note
          (f := fun t => { t with loops := t.loops.insert f.id l })
          (F := fun T => { T with loops := T.loops.insert f.id l })
          (fun _ _ => rfl) fun _ => rfl).congr fun c t => ?_
        simp [walk, hl, hn]
  | .ret .. | .whileLoop .. | .doWhile .. | .switch .. | .caseLabel .. | .defaultLabel _
  | .break _ | .continue _ | .goto .. | .label .. => by
    intro T t' h
    cases h

theorem follows_walkAll (hnames : c.calls.whitelist ⊆ names) (nest : List CountedLoop) :
    ∀ ss : List Stmt, Follows c names (walkAll · nest ss) (Origin.ofStmts c.symbols ss)
  | [] => .refl
  | s :: ss => (follows_walk hnames nest s).trans (follows_walkAll hnames nest ss)

theorem follows_walkNumbered (hnames : c.calls.whitelist ⊆ names) (nest : List CountedLoop) :
    ∀ (k : Nat) (ss : List Stmt),
      Follows c names (walkNumbered · nest k ss) (Origin.ofStmts c.symbols ss)
  | _, [] => .refl
  | k, s :: ss => by
    have hstep := (follows_walk hnames nest s).note (f := fun t => { t with topLevel := k })
      (F := fun T => { T with topLevel := k }) (fun _ _ => rfl) fun _ => rfl
    exact hstep.trans (follows_walkNumbered hnames nest (k + 1) ss)

end

end Trail

end LoopLegality

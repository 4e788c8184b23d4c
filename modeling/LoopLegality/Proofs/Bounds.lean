import LoopLegality.CountedLoop
import LoopLegality.Proofs.Constants

namespace LoopLegality

namespace Expr

variable {σ σ' : Values} {n : Int}

theorem eval?_of_int? (env : ConstEnv) : ∀ (e : Expr) {k : Int}, e.int? = some k →
    e.eval? env = some k
  | .int n _, _, h => h
  | .unary .neg e _, _, h => by
    obtain ⟨m, hm, h⟩ := Option.bind_eq_some_iff.mp h
    exact Option.bind_eq_some_iff.mpr ⟨m, eval?_of_int? env e hm, h⟩
  | .unary .plus e _, _, h =>
    Option.bind_eq_some_iff.mpr ⟨_, eval?_of_int? env e h, rfl⟩

theorem Yields.eq_ident {x : Symbol} {s : Span} (h : (Expr.ident x s).Yields σ n σ') :
    n = σ x ∧ σ' = σ := h

theorem Yields.eq_int {e : Expr} {k : Int} (h : e.Yields σ n σ') (hk : e.int? = some k) :
    n = k ∧ σ' = σ :=
  Yields.eq_eval e (ConstEnv.agrees_empty σ) h (eval?_of_int? .empty e hk)

theorem Yields.assign_plain {x : Symbol} {e : Expr} {s t : Span}
    (h : (Expr.assign .plain (.ident x s) e t).Yields σ n σ') :
    ∃ τ, e.Yields σ n τ ∧ σ' = Function.update τ x n := by
  simp only [Yields] at h
  obtain ⟨old, new, τ, h, hop, hst⟩ := h
  cases hop
  obtain ⟨υ, ⟨-, rfl⟩, he⟩ | ⟨υ, he, -, rfl⟩ := h
  · exact ⟨τ, he, hst⟩
  · exact ⟨τ, he, hst⟩

theorem Yields.increment {x : Symbol} {op : UnaryOp} {e : Expr} {s : Span} {k : Int}
    (hx : e.ident? = some x) (hop : op.change? = some k)
    (h : (Expr.unary op e s).Yields σ n σ') : σ' = Function.update σ x (σ x + k) := by
  obtain ⟨t, rfl⟩ := ident?_eq_some hx
  simp only [Yields, hop] at h
  obtain ⟨old, new, τ, ⟨rfl, rfl⟩, hadd, hst, -⟩ := h
  rw [hst, Word.eq_of_add? hadd]

theorem Yields.eq_linear : ∀ (e : Expr) {l : Linear} {σ σ' : Values} {n : Int},
    Linear.ofExpr? e = some l → e.Yields σ n σ' → n = l.eval σ ∧ σ' = σ
  | .int k _, _, _, _, _, hl, h => by
    cases hl
    exact ⟨h.1.trans (Linear.eval_const _ _).symm, h.2⟩
  | .ident x _, _, _, _, _, hl, h => by
    cases hl
    exact ⟨h.1.trans (Linear.eval_var _ _).symm, h.2⟩
  | .unary .plus e _, _, _, _, _, hl, ⟨a, h, ha⟩ => by
    cases ha
    exact Yields.eq_linear e hl h
  | .unary .neg e _, _, _, _, _, hl, ⟨a, h, ha⟩ => by
    obtain ⟨m, hm, hl⟩ := Option.bind_eq_some_iff.mp hl
    obtain ⟨rfl, rfl⟩ := Yields.eq_linear e hm h
    rw [Linear.eval_neg? hl]
    exact ⟨Word.eq_of_neg? ha, rfl⟩
  | .binary op e f _, l, σ, σ', n, hl, h => by
    simp only [Linear.ofExpr?, Option.bind_eq_bind, Option.bind_eq_some_iff] at hl
    obtain ⟨l₁, h₁, l₂, h₂, hl⟩ := hl
    have hpure (hop : op.isLogical = false) :
        op.result? (l₁.eval σ) (l₂.eval σ) = some n ∧ σ' = σ :=
      h.binary_of_pure hop (Yields.eq_linear e h₁) (Yields.eq_linear f h₂)
    cases op with
    | add =>
      obtain ⟨hn, rfl⟩ := hpure rfl
      rw [Linear.eval_add? hl]
      exact ⟨Word.eq_of_add? hn, rfl⟩
    | sub =>
      obtain ⟨hn, rfl⟩ := hpure rfl
      rw [Linear.eval_sub? hl]
      exact ⟨Word.eq_of_sub? hn, rfl⟩
    | mul =>
      obtain ⟨hn, rfl⟩ := hpure rfl
      refine ⟨(Word.eq_of_mul? hn).trans ?_, rfl⟩
      dsimp only at hl
      split at hl
      · next k hk => rw [Linear.eval_scale? hl, Linear.eval_of_constant? hk]
      · next k hk => rw [Linear.eval_scale? hl, Linear.eval_of_constant? hk, mul_comm]
      · cases hl
    | _ => cases hl

end Expr

namespace CountedLoop

variable {c : CountedLoop} {σ σ' : Values}

theorem ofHeader?_eq_some {h : ForHeader} (hc : ofHeader? h = some c) :
    ∃ init cond incr, h.init = some init ∧ h.cond = some cond ∧ h.incr = some incr ∧
      start? init = some (c.index, c.lower, c.declaresIndex) ∧
      limit? c.index cond = some (c.upper, c.inclusive) ∧ step? c.index incr = some c.step := by
  simp only [ofHeader?, Option.bind_eq_bind, Option.bind_eq_some_iff] at hc
  obtain ⟨init, hinit, ⟨x, lower, declares⟩, hstart, cond, hcond, ⟨upper, inclusive⟩, hlimit, incr,
    hincr, step, hstep, hc⟩ := hc
  split at hc
  · cases hc
    exact ⟨init, cond, incr, hinit, hcond, hincr, hstart, hlimit, hstep⟩
  · cases hc

theorem start?_runs {init : ForInit} {x : Symbol} {e : Expr} {b : Bool}
    (h : start? init = some (x, e, b)) (hr : init.Runs σ σ') :
    ∃ n τ, e.Yields σ n τ ∧ σ' = Function.update τ x n := by
  unfold start? at h
  split at h
  · cases h
    obtain ⟨n, hr⟩ := hr
    exact ⟨n, hr.assign_plain⟩
  · next d _ =>
    split at h
    · next hd =>
      split at h
      · next e' he =>
        cases h
        obtain ⟨τ, ⟨-, -, υ, hdims, hinit⟩, rfl⟩ := hr
        simp only [Bool.and_eq_true, List.isEmpty_iff] at hd
        obtain rfl : υ = σ := by simpa [hd.1, Expr.Run] using hdims
        rw [he] at hinit
        exact hinit
      · cases h
    · cases h
  · cases h

theorem step?_yields {e : Expr} {x : Symbol} {k n : Int} (h : step? x e = some k)
    (hy : e.Yields σ n σ') : σ' = Function.update σ x (σ x + k) := by
  unfold step? at h
  split at h
  · obtain ⟨hx, hk⟩ := Option.ite_none_right_eq_some.mp h
    cases hk
    exact Expr.Yields.increment hx rfl hy
  · obtain ⟨hx, hk⟩ := Option.ite_none_right_eq_some.mp h
    cases hk
    exact Expr.Yields.increment hx rfl hy
  · obtain ⟨hx, hk⟩ := Option.ite_none_right_eq_some.mp h
    obtain ⟨s, rfl⟩ := Expr.ident?_eq_some hx
    obtain ⟨old, new, τ, hboth, hadd, hst⟩ := hy
    obtain ⟨rfl, rfl, rfl⟩ := hboth.eq_of_pure Expr.Yields.eq_ident (Expr.Yields.eq_int · hk)
    rw [hst, Word.eq_of_add? hadd]
  · obtain ⟨hx, hk⟩ := Option.ite_none_right_eq_some.mp h
    obtain ⟨s, rfl⟩ := Expr.ident?_eq_some hx
    obtain ⟨τ, hsum, rfl⟩ := hy.assign_plain
    split at hk
    · next ha =>
      obtain ⟨s', rfl⟩ := Expr.ident?_eq_some ha
      obtain ⟨hadd, rfl⟩ :=
        hsum.binary_of_pure rfl Expr.Yields.eq_ident (Expr.Yields.eq_int · hk)
      rw [Word.eq_of_add? hadd]
    · obtain ⟨hb, hint⟩ := Option.ite_none_right_eq_some.mp hk
      obtain ⟨s', rfl⟩ := Expr.ident?_eq_some hb
      obtain ⟨hadd, rfl⟩ :=
        hsum.binary_of_pure rfl (Expr.Yields.eq_int · hint) Expr.Yields.eq_ident
      rw [Word.eq_of_add? hadd, add_comm]
  · cases h

theorem lt_of_limit? {x : Symbol} {cond upper : Expr} {inclusive : Bool} {l : Linear}
    (h : limit? x cond = some (upper, inclusive)) (hl : Linear.ofExpr? upper = some l)
    (ht : Tests (some cond) true σ σ') :
    if inclusive then σ x ≤ l.eval σ else σ x < l.eval σ := by
  obtain ⟨n, hy, hn⟩ := ht
  have hne : n ≠ 0 := by simpa using hn
  unfold limit? at h
  split at h
  · obtain ⟨hx, hk⟩ := Option.ite_none_right_eq_some.mp h
    cases hk
    obtain ⟨s, rfl⟩ := Expr.ident?_eq_some hx
    obtain ⟨hlt, -⟩ := hy.binary_of_pure rfl Expr.Yields.eq_ident (Expr.Yields.eq_linear _ hl)
    obtain rfl := Option.some.inj hlt
    simpa [truth] using hne
  · obtain ⟨hx, hk⟩ := Option.ite_none_right_eq_some.mp h
    cases hk
    obtain ⟨s, rfl⟩ := Expr.ident?_eq_some hx
    obtain ⟨hle, -⟩ := hy.binary_of_pure rfl Expr.Yields.eq_ident (Expr.Yields.eq_linear _ hl)
    obtain rfl := Option.some.inj hle
    simpa [truth] using hne
  · cases h

theorem le_upper {cond : Expr} (h : limit? c.index cond = some (c.upper, c.inclusive))
    (ht : Tests (some cond) true σ σ') {upper : Linear} (hu : c.upperLinear? = some upper) :
    σ c.index ≤ upper.eval σ := by
  obtain ⟨l, hl, hu⟩ := Option.bind_eq_some_iff.mp hu
  have hlt := lt_of_limit? h hl ht
  split at hu
  · next hi =>
    cases hu
    simpa [hi] using hlt
  · next hi =>
    rw [Linear.eval_add? hu, Linear.eval_const]
    simp only [hi, Bool.false_eq_true, if_false] at hlt
    omega

/-- The index is a whole number of steps from its first value. -/
def Counts (c : CountedLoop) (σ : Values) : Prop :=
  ∀ lower, c.lowerLinear? = some lower → ∃ k : Nat, σ c.index = lower.eval σ + c.step * k

def symbols (c : CountedLoop) : List Symbol :=
  c.index :: (c.lowerLinear?.elim [] Linear.support ++ c.upperLinear?.elim [] Linear.support)

theorem mem_symbols_lower {lower : Linear} (h : c.lowerLinear? = some lower) :
    ∀ y ∈ lower.support, y ∈ c.symbols := by
  intro y hy
  simp [symbols, h, hy]

theorem mem_symbols_upper {upper : Linear} (h : c.upperLinear? = some upper) :
    ∀ y ∈ upper.support, y ∈ c.symbols := by
  intro y hy
  simp [symbols, h, hy]

theorem Counts.congr (h : c.Counts σ) (hs : ∀ y ∈ c.symbols, σ' y = σ y) : c.Counts σ' := by
  intro lower hl
  obtain ⟨k, hk⟩ := h lower hl
  refine ⟨k, ?_⟩
  rw [hs c.index List.mem_cons_self, hk,
    Linear.eval_congr fun y hy => hs y (mem_symbols_lower hl y hy)]

/-- The first value of the index is not taken from the index itself. -/
def LowerFree (c : CountedLoop) : Prop :=
  ∀ lower, c.lowerLinear? = some lower → c.index ∉ lower.support

theorem counts_of_enters {init : ForInit}
    (h : start? init = some (c.index, c.lower, c.declaresIndex)) (hr : init.Runs σ σ')
    (hfree : c.LowerFree) : c.Counts σ' := by
  intro lower hl
  obtain ⟨n, τ, hy, rfl⟩ := start?_runs h hr
  obtain ⟨rfl, rfl⟩ := Expr.Yields.eq_linear _ hl hy
  refine ⟨0, ?_⟩
  rw [Function.update_self, Linear.eval_update (hfree lower hl)]
  simp

theorem Counts.step {incr : Expr} (h : step? c.index incr = some c.step) (hc : c.Counts σ)
    (hs : Steps (some incr) σ σ') (hfree : c.LowerFree) : c.Counts σ' := by
  intro lower hl
  obtain ⟨k, hk⟩ := hc lower hl
  obtain ⟨n, hy⟩ := hs
  obtain rfl := step?_yields h hy
  refine ⟨k + 1, ?_⟩
  rw [Function.update_self, Linear.eval_update (hfree lower hl), hk]
  push_cast
  ring

/-- Iterations that leave the index and the symbols of the bounds alone count on. -/
theorem Counts.iterates {cond : Option Expr} {incr : Expr} {body : Behaviour}
    {runs : List (Values × Values)} (h : step? c.index incr = some c.step) (hc : c.Counts σ)
    (hfree : c.LowerFree) (hit : Iterates cond (some incr) body σ runs σ')
    (hkeep : ∀ r ∈ runs, ∀ y ∈ c.symbols, r.2 y = r.1 y) : c.Counts σ' := by
  induction hit with
  | start => exact hc
  | next _ _ _ _ hstep ih =>
    simp only [List.forall_mem_append, List.forall_mem_singleton] at hkeep
    -- test and body leave the count as it is, the last clause takes it one step further
    exact ((ih hkeep.1).congr hkeep.2).step h hstep hfree

end CountedLoop

/-- No iteration of the loop up to now has changed its index or a symbol of its bounds. -/
def Visit.Keeps (v : Visit) (c : CountedLoop) : Prop :=
  ∀ r ∈ v.runs, ∀ y ∈ c.symbols, r.2 y = r.1 y

namespace Stmt

open CountedLoop (ofHeader?)

/-- What the bounds of a loop say holds while its body runs. -/
def Bounded (v : Visit) (ρ : Values) : Prop :=
  ∀ c, ofHeader? v.loop.header = some c → c.LowerFree → v.Keeps c → c.Admits ρ

theorem bounded_of_iterates {h : ForHeader} {b : Stmt} {s : Site} {body : Behaviour}
    {runs : List (Values × Values)} {σ σ₀ σ₁ σ₂ ρ : Values} (henter : Enters h.init σ σ₀)
    (hit : Iterates h.cond h.incr body σ₀ runs σ₁) (htest : Tests h.cond true σ₁ σ₂) :
    Bounded ⟨⟨h, b, s⟩, runs ++ [(σ₁, ρ)]⟩ ρ := by
  intro c hc hfree hkeep
  obtain ⟨init, cond, incr, hinit, hcond, hincr, hstart, hlimit, hstep⟩ :=
    CountedLoop.ofHeader?_eq_some hc
  rw [hinit] at henter
  rw [hincr] at hit
  rw [hcond] at htest
  simp only [Visit.Keeps, List.forall_mem_append, List.forall_mem_singleton] at hkeep
  obtain ⟨hruns, hlast⟩ := hkeep
  have hcounts := (CountedLoop.counts_of_enters hstart henter hfree).iterates hstep hfree hit hruns
  refine ⟨hcounts.congr hlast, fun upper hu => ?_⟩
  -- the last test compared the values that the body still has
  rw [hlast c.index List.mem_cons_self,
    Linear.eval_congr fun y hy => hlast y (CountedLoop.mem_symbols_upper hu y hy)]
  exact CountedLoop.le_upper hlimit htest hu

variable {run : Stmt → Behaviour}

mutual

theorem Starts.bounded : ∀ (s : Stmt) {σ ρ : Values} {vs : List Visit}, s.Starts run σ vs ρ →
    ∀ v ∈ vs, Bounded v ρ
  | .compound ss _, _, _, _, h => StartsIn.bounded ss h
  | .branch _ t none _, _, _, _, ⟨_, _, h⟩ => Starts.bounded t h
  | .branch _ t (some e) _, _, _, _, ⟨_, _, h⟩ => by
    obtain h | h := h
    · exact Starts.bounded t h
    · exact Starts.bounded e h
  | .forLoop f b s, σ, ρ, _, ⟨σ₀, runs, σ₁, σ₂, henter, hit, htest, inner, hvs, h⟩ => by
    subst hvs
    refine List.forall_mem_cons.mpr ⟨bounded_of_iterates henter hit htest, ?_⟩
    obtain ⟨rfl, -⟩ | h := h
    · nofun
    · exact Starts.bounded b h
  | .whileLoop _ b _, _, _, _, ⟨_, _, _, _, h⟩ => Starts.bounded b h
  | .doWhile b _ _, _, _, _, h => by
    obtain h | ⟨_, _, _, _, _, _, _, _, h⟩ := h
    · exact Starts.bounded b h
    · exact Starts.bounded b h
  | .null _, _, _, _, h | .decl .., _, _, _, h | .expr .., _, _, _, h | .ret .., _, _, _, h
  | .switch .., _, _, _, h | .caseLabel .., _, _, _, h | .defaultLabel _, _, _, _, h
  | .break _, _, _, _, h | .continue _, _, _, _, h | .goto .., _, _, _, h
  | .label .., _, _, _, h => h.elim

theorem StartsIn.bounded : ∀ (ss : List Stmt) {σ ρ : Values} {vs : List Visit},
    StartsIn run ss σ vs ρ → ∀ v ∈ vs, Bounded v ρ
  | [], _, _, _, h => h.elim
  | s :: ss, _, _, _, h => by
    obtain h | ⟨τ, -, h⟩ := h
    · exact Starts.bounded s h
    · exact StartsIn.bounded ss h

end

end Stmt

namespace Draft

variable {loops : IndexMap CountedLoop} {ids : List LoopId} {I : IndexMap Nat} {d₀ d d' : Draft}
variable {common side : Nat} {ρ : Values}

/-- What the unknowns of common loops stand for: the indices of the loops in order. -/
def indexPoint (loops : IndexMap CountedLoop) (ids : List LoopId) (ρ : Values) (v : Nat) : Int :=
  (((ids[v / 2]?).bind loops.get?).map fun l => ρ l.index).getD 0

theorem exists_models_indicesOf (hside : side < 2) (hcommon : 2 * common ≤ d₀.unknowns)
    (hshared : d₀.shared = .empty) (hle : d₀.le = []) (heq : d₀.eq = [])
    (h : indicesOf loops common side 0 ids .empty d₀ = some (I, d)) (ρ : Values) :
    ∃ x, Models I I ρ ρ d x := by
  have hpoint : ∀ j id l, ids[j]? = some id → loops.get? id = some l → j < common →
      indexPoint loops ids ρ (2 * j + side) = ρ l.index := by
    intro j id l hj hl _
    have hhalf : (2 * j + side) / 2 = j := by omega
    simp [indexPoint, hhalf, hj, hl]
  obtain ⟨⟨x, -, hI⟩, hd, -, -⟩ := indicesOf_spec h List.drop_zero hside hcommon hpoint nofun
  rw [hd] at hI ⊢
  exact ⟨x, models_of_indexes hshared hle heq hI hI⟩

/-- Whenever the body of a loop in a nest of counted loops starts, the rows for the bounds of all
loops around it hold, with the stride unknowns at suitable values: in any draft that the values of
the symbols satisfy so far, and so in one that has no other rows. For each loop the first value
must not be taken from the index itself, and neither tests nor bodies may have changed the index
or a symbol of the bounds. -/
theorem bounds_hold_of_starts {run : Stmt → Behaviour} {s : Stmt} {σ : Values} {vs : List Visit}
    {env : ConstEnv} (hstart : s.Starts run σ vs ρ)
    (hloops : ∀ v ∈ vs, ∃ c, CountedLoop.ofHeader? v.loop.header = some c ∧
      loops.get? v.loop.header.id = some c ∧ c.LowerFree ∧ v.Keeps c)
    (henv : env.Agrees ρ) (hside : side < 2) (hcommon : 2 * common ≤ d₀.unknowns)
    (hshared : d₀.shared = .empty) (hle : d₀.le = []) (heq : d₀.eq = [])
    (hindices : indicesOf loops common side 0 (vs.map (·.loop.header.id)) .empty d₀ = some (I, d))
    (hbounds : addAllBounds loops I env (vs.map (·.loop.header.id)) d = some ((), d')) :
    (∀ J τ, AgreeOutside I J ρ τ →
      Keeps I J ρ τ (addAllBounds loops I env (vs.map (·.loop.header.id)))) ∧
    ∃ x, d'.Reads I x ρ ∧ (∀ t ∈ d'.le, t.1.value x + t.2 ≤ 0) ∧
      ∀ t ∈ d'.eq, t.1.value x + t.2 = 0 := by
  have hadmits : ∀ id ∈ vs.map (·.loop.header.id), ∀ c, loops.get? id = some c → c.Admits ρ := by
    intro id hid c hget
    obtain ⟨v, hv, rfl⟩ := List.mem_map.mp hid
    obtain ⟨c', hc, hget', hfree, hkeep⟩ := hloops v hv
    obtain rfl : c' = c := Option.some.inj (hget'.symm.trans hget)
    exact Stmt.Starts.bounded s hstart v hv c' hc hfree hkeep
  have hkeeps (J : IndexMap Nat) (τ : Values) (hout : AgreeOutside I J ρ τ) :
      Keeps I J ρ τ (addAllBounds loops I env (vs.map (·.loop.header.id))) :=
    addAllBounds_keeps hout henv fun id hid c hc => (hadmits id hid c hc).admitsIn env
  obtain ⟨x, hx⟩ := exists_models_indicesOf hside hcommon hshared hle heq hindices ρ
  obtain ⟨x', -, hx'⟩ := hkeeps I ρ (fun _ _ _ => rfl) d x d' hx hbounds
  exact ⟨hkeeps, x', hx'.source, hx'.le, hx'.eq⟩

end Draft

namespace BandedNest

/-- `for (j = i; j <= i + 3; j++) g();` -/
def inner : ForLoop where
  header :=
    { id := 1
      init := some (.expr (.assign .plain (.ident 1 .none) (.ident 0 .none) .none) .none)
      cond := some (.binary .le (.ident 1 .none)
        (.binary .add (.ident 0 .none) (.int 3 .none) .none) .none)
      incr := some (.unary .postIncr (.ident 1 .none) .none) }
  body := .expr (.call (.ident 3 .none) [] .none) ⟨.none, []⟩
  site := ⟨.none, []⟩

/-- `for (i = n; i < 10; i += 2)` around it. -/
def outer : ForLoop where
  header :=
    { id := 0
      init := some (.expr (.assign .plain (.ident 0 .none) (.ident 2 .none) .none) .none)
      cond := some (.binary .lt (.ident 0 .none) (.int 10 .none) .none)
      incr := some (.assign (.compound .add) (.ident 0 .none) (.int 2 .none) .none) }
  body := inner.stmt
  site := ⟨.none, []⟩

def row : CountedLoop where
  id := 0
  index := 0
  declaresIndex := false
  lower := .ident 2 .none
  upper := .int 10 .none
  inclusive := false
  step := 2
  step_pos := two_pos

def column : CountedLoop where
  id := 1
  index := 1
  declaresIndex := false
  lower := .ident 0 .none
  upper := .binary .add (.ident 0 .none) (.int 3 .none) .none
  inclusive := true
  step := 1
  step_pos := Int.zero_lt_one

def loops : IndexMap CountedLoop := (IndexMap.empty.insert 0 row).insert 1 column

/-- The call leaves the variables alone. -/
def call : Stmt → Behaviour := fun _ σ g σ' => g = .done ∧ σ' = σ

def atRow : Values := Function.update (fun _ => 4) 0 4

def atFirst : Values := Function.update atRow 1 4

def atSecond : Values := Function.update atFirst 1 5

def visits : List Visit :=
  [⟨outer, [(atRow, atSecond)]⟩, ⟨inner, [(atFirst, atFirst), (atSecond, atSecond)]⟩]

theorem tests_row {σ : Values} (h : σ 0 < 10) : Tests outer.header.cond true σ σ := by
  have hlt : BinaryOp.lt.result? (σ 0) 10 = some 1 := by simp [BinaryOp.result?, truth, h]
  exact ⟨1, .inr ⟨σ 0, 10, rfl, hlt, .inl ⟨σ, ⟨rfl, rfl⟩, ⟨rfl, rfl⟩⟩⟩, rfl⟩

theorem tests_column {σ : Values} (h : σ 1 ≤ σ 0 + 3) (hfits : Word.Fits (σ 0 + 3)) :
    Tests inner.header.cond true σ σ := by
  have hadd : BinaryOp.add.result? (σ 0) 3 = some (σ 0 + 3) := Word.fit?_of_fits hfits
  have hle : BinaryOp.le.result? (σ 1) (σ 0 + 3) = some 1 := by simp [BinaryOp.result?, truth, h]
  have hsum : (Expr.binary .add (.ident 0 .none) (.int 3 .none) .none).Yields σ (σ 0 + 3) σ :=
    .inr ⟨σ 0, 3, rfl, hadd, .inl ⟨σ, ⟨rfl, rfl⟩, ⟨rfl, rfl⟩⟩⟩
  exact ⟨1, .inr ⟨σ 1, σ 0 + 3, rfl, hle, .inl ⟨σ, ⟨rfl, rfl⟩, hsum⟩⟩, rfl⟩

theorem starts_inner : inner.stmt.Starts call atRow
    [⟨inner, [(atFirst, atFirst), (atSecond, atSecond)]⟩] atSecond := by
  have henter : Enters inner.header.init atRow atFirst :=
    ⟨4, 4, 4, atRow, .inl ⟨atRow, ⟨rfl, rfl⟩, ⟨rfl, rfl⟩⟩, rfl, rfl⟩
  have hstep : Steps inner.header.incr atFirst atSecond :=
    ⟨4, 4, 5, atFirst, ⟨rfl, rfl⟩, rfl, rfl, rfl⟩
  have hit : Iterates inner.header.cond inner.header.incr (call inner.body) atFirst
      [(atFirst, atFirst)] atSecond :=
    .next .start (tests_column (by decide) (by decide)) (g := .done) ⟨rfl, rfl⟩ rfl hstep
  exact ⟨atFirst, _, atSecond, atSecond, henter, hit, tests_column (by decide) (by decide), [], rfl,
    .inl ⟨rfl, rfl⟩⟩

theorem starts_second : outer.stmt.Starts call (fun _ => 4) visits atSecond := by
  have henter : Enters outer.header.init (fun _ => 4) atRow :=
    ⟨4, 4, 4, fun _ => 4, .inl ⟨fun _ => 4, ⟨rfl, rfl⟩, ⟨rfl, rfl⟩⟩, rfl, rfl⟩
  exact ⟨atRow, [], atRow, atRow, henter, .start, tests_row (by decide), _, rfl, .inr starts_inner⟩

theorem counted_visits : ∀ v ∈ visits, ∃ c, CountedLoop.ofHeader? v.loop.header = some c ∧
    loops.get? v.loop.header.id = some c ∧ c.LowerFree ∧ v.Keeps c := by
  simp only [visits, List.forall_mem_cons]
  refine ⟨⟨row, rfl, rfl, ?_, ?_⟩, ⟨column, rfl, rfl, ?_, ?_⟩, nofun⟩
  · intro lower hl
    obtain rfl : lower = .var 2 := (Option.some.inj hl).symm
    decide
  · simp only [Visit.Keeps, List.forall_mem_singleton]
    decide
  · intro lower hl
    obtain rfl : lower = .var 0 := (Option.some.inj hl).symm
    decide
  · simp only [Visit.Keeps, List.forall_mem_cons]
    exact ⟨by decide, by decide, nofun⟩

def indices : IndexMap Nat := (IndexMap.empty.insert 0 0).insert 1 2

end BandedNest

open BandedNest in
/-- Five inequalities and the stride hold when the body of the inner loop starts again. -/
theorem Draft.bounds_hold_bandedNest :
    outer.stmt.Starts call (fun _ => 4) visits atSecond ∧
      indicesOf loops 2 0 0 [0, 1] .empty (start 2) = some (indices, start 2) ∧
      ∃ d, addAllBounds loops indices .empty [0, 1] (start 2) = some ((), d) ∧
        d.le.length = 5 ∧ d.eq.length = 1 ∧
        ∃ x, d.Reads indices x atSecond ∧ (∀ t ∈ d.le, t.1.value x + t.2 ≤ 0) ∧
          ∀ t ∈ d.eq, t.1.value x + t.2 = 0 := by
  have hindices : indicesOf loops 2 0 0 [0, 1] .empty (start 2) = some (indices, start 2) := rfl
  obtain ⟨d, hbounds, hle, heq⟩ : ∃ d,
      addAllBounds loops indices .empty [0, 1] (start 2) = some ((), d) ∧
        d.le.length = 5 ∧ d.eq.length = 1 := ⟨_, rfl, rfl, rfl⟩
  refine ⟨starts_second, hindices, d, hbounds, hle, heq, ?_⟩
  exact (bounds_hold_of_starts starts_second counted_visits (ConstEnv.agrees_empty _)
    Nat.zero_lt_two le_rfl rfl rfl rfl hindices hbounds).2

end LoopLegality

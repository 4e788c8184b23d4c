import LoopLegality.Proofs.RegionConstants
import LoopLegality.Proofs.UniformPair

namespace LoopLegality

theorem Linear.ofExpr?_of_int? {e : Expr} {n : Int} (h : e.int? = some n) :
    ofExpr? e = some (const n) := by
  fun_induction Expr.int? e generalizing n with
  | case1 m s =>
    cases h
    rfl
  | case2 e s ih =>
    obtain ⟨m, hm, hn⟩ := Option.bind_eq_some_iff.mp h
    obtain ⟨hfits, rfl⟩ := Word.fit?_eq_some.mp hn
    have hmul : Word.mul? m (-1) = some (-m) := by
      rw [Word.mul?, Int.mul_neg_one]
      exact Word.fit?_of_fits hfits
    simp only [ofExpr?, ih hm, Option.bind_eq_bind, Option.bind_some, neg?]
    exact (scale?_eq_some (by decide)).mpr ⟨rfl, hmul⟩
  | case3 e s ih => exact ih h
  | case4 => cases h

theorem Touch.ofExpr_of_int? (c : Touch.Context) {e : Expr} {n : Int} (h : e.int? = some n) :
    ofExpr c e = .ok [] := by
  fun_induction Expr.int? e generalizing n with
  | case1 m s => rfl
  | case2 e s ih =>
    obtain ⟨m, hm, -⟩ := Option.bind_eq_some_iff.mp h
    exact ih hm
  | case3 e s ih => exact ih h
  | case4 => cases h

/-- The expression `k * i + c`, with numbers as signed literals. -/
def Expr.IsAffine (i : Symbol) (k c : Int) : Expr → Prop
  | .binary .add (.binary .mul l r _) o _ => l.int? = some k ∧ r.ident? = some i ∧ o.int? = some c
  | _ => False

def Expr.IsElement (a i : Symbol) (k c : Int) : Expr → Prop
  | .subscript b e _ => b.ident? = some a ∧ e.IsAffine i k c
  | _ => False

/-- The header `for (int i = lower; i < upper; i += step)`. -/
structure ForHeader.Counts (h : ForHeader) (i : Symbol) (lower upper step : Int) : Prop where
  init : ∃ d s e, h.init = some (.decl ⟨[d], s⟩) ∧ d.symbol = i ∧ d.dims = [] ∧ d.pointer = false ∧
    d.init = some (.expr e) ∧ e.int? = some lower
  cond : ∃ l r s, h.cond = some (.binary .lt l r s) ∧ l.ident? = some i ∧ r.int? = some upper
  incr : ∃ l r s, h.incr = some (.assign (.compound .add) l r s) ∧ l.ident? = some i ∧
    r.int? = some step

/-- The loop `for (int i = lower; i < upper; i += step) a[k * i + c] = a[k * i + c'];`. -/
def Stmt.IsUniformCopy (i a : Symbol) (lower upper step k c c' : Int) : Stmt → Prop
  | .forLoop h (.expr (.assign .plain l r _) _) _ =>
    h.Counts i lower upper step ∧ l.IsElement a i k c ∧ r.IsElement a i k c'
  | _ => False

theorem Linear.scale?_var {k : Int} (hk : Word.Fits k) (i : Symbol) :
    (var i).scale? k = some (affine i k 0) := by
  by_cases h : k = 0
  · subst h
    rfl
  · have hone : Word.mul? 1 k = some k := by
      rw [Word.mul?, one_mul]
      exact Word.fit?_of_fits hk
    have hzero : Word.mul? 0 k = some 0 := by
      rw [Word.mul?, zero_mul]
      rfl
    refine (scale?_eq_some h).mpr ⟨?_, by rwa [constant_affine]⟩
    have hentries : (var i).terms.entries = [(i, 1)] := rfl
    have hterms : (affine i k 0).terms = IndexMap.empty.insert i k := by
      rw [affine, set, dif_neg h]
      rfl
    simp [hentries, scaleTerm?, hone, hterms]

theorem Linear.add?_affine {c : Int} (hc : Word.Fits c) (i : Symbol) (k : Int) :
    (affine i k 0).add? (const c) = some (affine i k c) := by
  have hadd : Word.add? 0 c = some c := by
    rw [Word.add?, zero_add]
    exact Word.fit?_of_fits hc
  have hconst : (affine i k 0).add? (const c) =
      (Word.add? (affine i k 0).constant c).bind fun c =>
        some { affine i k 0 with constant := c } := rfl
  rw [hconst, constant_affine, hadd, Option.bind_some, Option.some.injEq]
  refine ext_entries (constant_affine i k c).symm ?_
  simp only [entries_affine]

theorem Expr.IsAffine.ofExpr? {i : Symbol} {k c : Int} {e : Expr} (h : e.IsAffine i k c)
    (hk : Word.Fits k) (hc : Word.Fits c) : Linear.ofExpr? e = some (.affine i k c) := by
  unfold IsAffine at h
  split at h
  · obtain ⟨hl, hr, ho⟩ := h
    obtain ⟨s, rfl⟩ := Expr.ident?_eq_some hr
    have hconstant : (Linear.const k).constant? = some k := rfl
    simp [Linear.ofExpr?, Linear.ofExpr?_of_int? hl, Linear.ofExpr?_of_int? ho, hconstant,
      Linear.scale?_var hk, Linear.add?_affine hc]
  · exact h.elim

section Collect

variable {c : Touch.Context} {a i : Symbol} {k o : Int} {e : Expr}

def elementTouches (a i : Symbol) (isWrite : Bool) (k o : Int) (s s' : Span) : List Touch :=
  [⟨a, isWrite, some [some (.affine i k o)], false, s⟩, ⟨i, false, none, false, s'⟩]

theorem Expr.IsAffine.touches (h : e.IsAffine i k o) (hi : c.symbols.kind? i ≠ some .function) :
    ∃ s, Touch.ofExpr c e = .ok [⟨i, false, none, false, s⟩] := by
  unfold IsAffine at h
  split at h
  · obtain ⟨hl, hr, ho⟩ := h
    obtain ⟨s, rfl⟩ := Expr.ident?_eq_some hr
    refine ⟨s, ?_⟩
    simp only [Touch.ofExpr, Touch.ofExpr_of_int? c hl, Touch.ofExpr_of_int? c ho, if_neg hi]
    rfl
  · exact h.elim

theorem Touch.element_eq {b : Expr} {s : Span} {isWrite : Bool} (hb : b.ident? = some a)
    (he : e.IsAffine i k o) (hk : Word.Fits k) (ho : Word.Fits o) (ha : a ∉ c.indices) :
    element c (.subscript b e s) isWrite =
      .ok [⟨a, isWrite, some [some (.affine i k o)], false, s⟩] := by
  obtain ⟨s', rfl⟩ := Expr.ident?_eq_some hb
  simp [element, chain, Expr.ident?, he.ofExpr? hk ho, one, ha]
  rfl

theorem Expr.IsElement.touches_target (h : e.IsElement a i k o) (hk : Word.Fits k)
    (ho : Word.Fits o) (ha : a ∉ c.indices) (hi : c.symbols.kind? i ≠ some .function) :
    ∃ s s', Touch.ofTarget c e = .ok (elementTouches a i true k o s s') := by
  unfold IsElement at h
  split at h
  · next b j s =>
    obtain ⟨hb, hj⟩ := h
    obtain ⟨s', hs'⟩ := hj.touches hi
    refine ⟨s, s', ?_⟩
    rw [Touch.ofTarget, Touch.element_eq hb hj hk ho ha, hs']
    obtain ⟨s'', rfl⟩ := Expr.ident?_eq_some hb
    rfl
  · exact h.elim

theorem Expr.IsElement.touches (h : e.IsElement a i k o) (hk : Word.Fits k)
    (ho : Word.Fits o) (ha : a ∉ c.indices) (hi : c.symbols.kind? i ≠ some .function) :
    ∃ s s', Touch.ofExpr c e = .ok (elementTouches a i false k o s s') := by
  unfold IsElement at h
  split at h
  · next b j s =>
    obtain ⟨hb, hj⟩ := h
    obtain ⟨s', hs'⟩ := hj.touches hi
    refine ⟨s, s', ?_⟩
    rw [Touch.ofExpr, Touch.element_eq hb hj hk ho ha, hs']
    obtain ⟨s'', rfl⟩ := Expr.ident?_eq_some hb
    rfl
  · exact h.elim

theorem ForHeader.Counts.exists_ofHeader? {h : ForHeader} {lower upper step : Int}
    (hh : h.Counts i lower upper step) (hpos : 1 ≤ step) (hupper : Word.Fits (upper - 1)) :
    ∃ l, CountedLoop.ofHeader? h = some l ∧ l.id = h.id ∧ l.index = i ∧ l.step = step ∧
      l.lowerLinear? = some (.const lower) ∧ l.upperLinear? = some (.const (upper - 1)) := by
  obtain ⟨d, s, e, hinit, rfl, hdims, hptr, he, hlower⟩ := hh.init
  obtain ⟨l, r, s', hcond, hl, hr⟩ := hh.cond
  obtain ⟨l', r', s'', hincr, hl', hr'⟩ := hh.incr
  refine ⟨⟨h.id, d.symbol, true, e, r, false, step, by omega⟩, ?_, rfl, rfl, rfl,
    Linear.ofExpr?_of_int? hlower, ?_⟩
  · have hstep : 0 < step := by omega
    simp [CountedLoop.ofHeader?, hinit, hcond, hincr, CountedLoop.start?, CountedLoop.limit?,
      CountedLoop.step?, hdims, hptr, he, hl, hl', hr', hstep]
  · have hadd : Word.add? upper (-1) = some (upper - 1) := Word.fit?_of_fits hupper
    have hsum : (Linear.const upper).add? (.const (-1)) =
        (Word.add? upper (-1)).bind fun n => some (.const n) := rfl
    simp [CountedLoop.upperLinear?, Linear.ofExpr?_of_int? hr, hsum, hadd]

structure Access.TouchesAt (s : Access) (id : LoopId) (i a : Symbol) (k o : Int) : Prop where
  symbol : s.symbol = a
  loops : s.loops = [id]
  subscripts : s.subscripts = some [some (.affine i k o)]

/-- One statement of the loop writes one element and reads another. -/
structure Access.Copies (write read : Access) (id : LoopId) (i a : Symbol) (k o o' : Int) :
    Prop where
  write_at : write.TouchesAt id i a k o
  read_at : read.TouchesAt id i a k o'
  isWrite : write.isWrite = true
  isRead : read.isWrite = false
  statement : write.statement = read.statement
  order : read.order ≠ write.order

theorem Collector.collect_of_walk {col : Collector} {stmts : List Stmt} {tr : Trail}
    (hcancel : col.cancelled = false)
    (hwalk : Trail.walkNumbered col.context [] 0 stmts .empty = .ok tr)
    (hlimit : ∀ n, col.config.maxAccesses = some n → tr.accesses.length ≤ n) :
    col.collect stmts = .ok ⟨tr.accesses, tr.loops⟩ := by
  rw [collect]
  dsimp only
  rw [hcancel, if_neg Bool.false_ne_true, hwalk]
  refine bind_eq_ok.mpr ⟨tr, rfl, ?_⟩
  split
  · next n hn =>
    rw [if_neg (not_lt.mpr (hlimit n hn))]
    rfl
  · rfl

/-- The walk through the loop meets a write and a read, each with a read of the index. -/
theorem Stmt.IsUniformCopy.collect {st : Stmt} {lower upper step o' : Int} (col : Collector)
    (h : st.IsUniformCopy i a lower upper step k o o') (hpos : 1 ≤ step)
    (hupper : Word.Fits (upper - 1)) (hk : Word.Fits k) (ho : Word.Fits o) (ho' : Word.Fits o')
    (hia : i ≠ a) (hi : col.symbols.kind? i ≠ some .function) (hcancel : col.cancelled = false)
    (hlimit : ∀ n, col.config.maxAccesses = some n → 4 ≤ n) :
    ∃ id l write read set, l.index = i ∧ l.step = step ∧ l.lowerLinear? = some (.const lower) ∧
      l.upperLinear? = some (.const (upper - 1)) ∧ i ∈ Node.writesOf (Stmt.nodesOf [st]) ∧
      col.collect [st] = .ok set ∧ set.loops = IndexMap.empty.insert id l ∧
      set.accesses.filter (·.symbol == a) = [write, read] ∧
      (∀ b ∈ set.accesses, b.isDeclaration = false ∧ (b.isWrite = true → b.symbol = a)) ∧
      write.Copies read id i a k o o' := by
  unfold IsUniformCopy at h
  split at h
  · next hd e r s site site' =>
    obtain ⟨hhd, he, hr⟩ := h
    obtain ⟨l, hl, hid, hindex, hstep, hlo, hup⟩ := hhd.exists_ofHeader? hpos hupper
    let c := Trail.contextIn col.context [l]
    have ha : a ∉ c.indices := by
      show a ∉ [l.index]
      simp [hindex, hia.symm]
    obtain ⟨s₀, s₁, hw⟩ := he.touches_target (c := c) hk ho ha hi
    obtain ⟨s₂, s₃, hrd⟩ := hr.touches (c := c) hk ho' ha hi
    -- the touches in their places
    let place (t : Touch) (order : Nat) : Access :=
      { t with loops := [hd.id], statement := 1, topLevel := 0, order }
    let write := place ⟨a, true, some [some (.affine i k o)], false, s₀⟩ 0
    let read := place ⟨a, false, some [some (.affine i k o')], false, s₂⟩ 2
    let index (s : Span) := place ⟨i, false, none, false, s⟩
    refine ⟨hd.id, l, write, read, ⟨[write, index s₁ 1, read, index s₃ 3], _⟩, hindex, hstep, hlo,
      hup, ?_, ?_, rfl, ?_, ?_, ⟨rfl, rfl, rfl⟩, ⟨rfl, rfl, rfl⟩, rfl, rfl, rfl, nofun⟩
    · obtain ⟨d, s, e, hinit, rfl, -⟩ := hhd.init
      simp [Stmt.nodesOf, Stmt.nodes, ForHeader.nodes, ForInit.nodes, Declaration.nodes,
        Declarator.nodes, Node.writesOf, Node.writes, hinit]
    · have htouch : Touch.ofStatementExpr c (.assign .plain e r s) site.span = .ok
          (elementTouches a i true k o s₀ s₁ ++ [] ++ elementTouches a i false k o' s₂ s₃) := by
        rw [Touch.ofStatementExpr, Touch.ofExpr, hw, hrd]
        rfl
      have hwalk : Trail.walkNumbered col.context [] 0
          [.forLoop hd (.expr (.assign .plain e r s) site) site'] .empty = .ok
            ⟨[⟨[hd.id], 0, elementTouches a i true k o s₀ s₁ ++ [] ++
              elementTouches a i false k o' s₂ s₃⟩], IndexMap.empty.insert hd.id l, 0⟩ := by
        simp only [Trail.walkNumbered, Trail.walk, hl, List.isEmpty_nil, if_true]
        rw [htouch]
        simp [Trail.add, hid]
        rfl
      exact Collector.collect_of_walk hcancel hwalk hlimit
    · simp [write, read, index, place, hia]
    · simp [write, read, index, place]
  · exact h.elim

end Collect

/-- The values of the index of `for (i = lower; i < upper; i += step)`. -/
def IsIndexValue (lower upper step n : Int) : Prop := ∃ m : Nat, n = lower + step * m ∧ n < upper

theorem exists_isIndexValue {lower upper step : Int} (hpos : 1 ≤ step) :
    (∃ n, IsIndexValue lower upper step n) ↔ lower < upper := by
  constructor
  · rintro ⟨_, m, rfl, hlt⟩
    nlinarith
  · intro hlt
    exact ⟨lower, 0, by simp, hlt⟩

/-- Accesses are tested in one loop between numbers, which declares nothing and writes only `a`. -/
structure PairContext.InLoop (c : PairContext) (id : LoopId) (l : CountedLoop) (a : Symbol)
    (lower upper step : Int) : Prop where
  loop : c.loops.get? id = some l
  lowerLinear : l.lowerLinear? = some (.const lower)
  upperLinear : l.upperLinear? = some (.const (upper - 1))
  step_eq : l.step = step
  env : c.env.get? l.index = none
  rank : c.symbols.rank? a = some 1
  declares : ∀ b ∈ c.accesses, b.isDeclaration = false
  writes : ∀ b ∈ c.accesses, b.isWrite = true → b.symbol = a
  lower_le : lower.natAbs ≤ 2 ^ 20
  upper_le : upper.natAbs ≤ 2 ^ 20
  step_pos : 1 ≤ step
  step_le : step ≤ 2 ^ 20

namespace PairContext

variable {c : PairContext} {id : LoopId} {l : CountedLoop} {a : Symbol}
  {lower upper step k c₁ c₂ : Int} {s t : Access}

/-- The vectors between two subscripts are the signs of the distances between iterations at which
they have one value. -/
theorem InLoop.mem_candidates (h : c.InLoop id l a lower upper step)
    (hs : s.TouchesAt id l.index a k c₁) (ht : t.TouchesAt id l.index a k c₂)
    (hk : k.natAbs ≤ 2 ^ 20) (h₁ : c₁.natAbs ≤ 2 ^ 20) (h₂ : c₂.natAbs ≤ 2 ^ 20) :
    ∃ vs, c.candidates s t = .ok vs ∧ ∀ v, v ∈ vs ↔
      ∃ x y, IsIndexValue lower upper step x ∧ IsIndexValue lower upper step y ∧
        k * x + c₁ = k * y + c₂ ∧ x ≤ y ∧ v = [Direction.ofDistance (y - x)] := by
  have hlower := h.lower_le
  have hupper := h.upper_le
  let u : UniformPair := ⟨lower, upper - 1, step, k, c₁ - c₂⟩
  have hu : u.Small := {
    lower := by show lower.natAbs ≤ _; omega
    upper := by show (upper - 1).natAbs ≤ _; omega
    step_pos := h.step_pos
    step := h.step_le
    factor := hk
    gap := by show (c₁ - c₂).natAbs ≤ _; omega }
  have hlinear {r : Access} {o : Int} (hr : r.TouchesAt id l.index a k o) :
      r.linearSubscripts? = some [.affine l.index u.factor o] := by
    simp [Access.linearSubscripts?, hr.subscripts]
    rfl
  obtain ⟨sys, hp, hsys⟩ := DependenceProblem.exists_ofPair hu hs.loops ht.loops h.loop
    h.lowerLinear h.upperLinear h.step_eq h.env (hlinear hs) (hlinear ht) rfl
  have hproblem : c.problem? s t = some ⟨sys, [(0, 1)]⟩ := by
    rw [problem?, if_pos, hp]
    simp [isAffinePair, hlinear hs, hlinear ht, hs.symbol, h.rank]
  have hprivate : c.privateLoops s t = 0 := by
    have hnone : c.declaration? s.symbol = none := by
      rw [declaration?, List.find?_eq_none]
      intro b hb
      simp [h.declares b hb]
    rw [privateLoops, hnone]
  have hlev : DependenceProblem.Levelled ⟨sys, [(0, 1)]⟩ := by
    have := u.two_le_vars
    simp [DependenceProblem.Levelled, hsys.vars]
    omega
  have hreach (n : Int) : u.Reaches n ↔ IsIndexValue lower upper step n :=
    exists_congr fun m => and_congr_right fun _ => Int.le_sub_one_iff
  obtain ⟨ws, hws, hiff⟩ := DependenceProblem.mem_directions_of_exact rfl hlev
    fun d hd => hsys.infeasible_or_satisfies hu hd
  refine ⟨ws, (candidates_of_some hproblem).mpr ⟨ws, hws, by simp [hprivate]⟩, fun v => ?_⟩
  rw [hiff]
  constructor
  · rintro ⟨x, hx, hxy, rfl⟩
    obtain ⟨ha, hb, hmeet⟩ := (hsys.exists_satisfies_iff hu).mp ⟨x, hx, rfl, rfl⟩
    have hmeet : k * x 0 + (c₁ - c₂) = k * x 1 := hmeet
    exact ⟨x 0, x 1, (hreach _).mp ha, (hreach _).mp hb, by linarith, hxy, rfl⟩
  · rintro ⟨x, y, hx, hy, hmeet, hxy, rfl⟩
    have hmeet : u.factor * x + u.gap = u.factor * y := by
      show k * x + (c₁ - c₂) = k * y
      linarith
    obtain ⟨z, hz, rfl, rfl⟩ :=
      (hsys.exists_satisfies_iff hu).mpr ⟨(hreach x).mpr hx, (hreach y).mpr hy, hmeet⟩
    exact ⟨z, hz, hxy, rfl⟩

theorem InLoop.mem_directions (h : c.InLoop id l a lower upper step)
    (hs : s.TouchesAt id l.index a k c₁) (ht : t.TouchesAt id l.index a k c₂)
    (hk : k.natAbs ≤ 2 ^ 20) (h₁ : c₁.natAbs ≤ 2 ^ 20) (h₂ : c₂.natAbs ≤ 2 ^ 20)
    (hdecl : t.isDeclaration = false) : ∃ vs, c.directions s t = .ok vs ∧ ∀ v, v ∈ vs ↔
      (v = [.lt] ∧ ∃ x y, IsIndexValue lower upper step x ∧ IsIndexValue lower upper step y ∧
        x < y ∧ k * x + c₁ = k * y + c₂) ∨
      (v = [.eq] ∧ (s.order ≠ t.order ∧ s.precedes t = true) ∧ c₁ = c₂ ∧ lower < upper) := by
  have hcommon : s.commonLoops t ≠ 0 := by
    simp [Access.commonLoops, hs.loops, ht.loops, Access.commonPrefix]
  have hsign {x y : Int} (hxy : x ≤ y) : (x < y ∧ Direction.ofDistance (y - x) = .lt) ∨
      (x = y ∧ Direction.ofDistance (y - x) = .eq) := by
    obtain hlt | rfl := hxy.lt_or_eq
    · exact Or.inl ⟨hlt, by grind [Direction.ofDistance]⟩
    · exact Or.inr ⟨rfl, by simp [Direction.ofDistance]⟩
  obtain ⟨ws, hws, hcandidates⟩ := h.mem_candidates hs ht hk h₁ h₂
  refine ⟨_, (directions_iff_candidates hdecl (Or.inl hcommon)).mpr ⟨ws, hws, rfl⟩, fun v => ?_⟩
  rw [List.mem_filter, hcandidates, ← exists_isIndexValue h.step_pos]
  simp only [Bool.or_eq_true, Bool.and_eq_true, bne_iff_ne, List.any_eq_true]
  constructor
  · rintro ⟨⟨x, y, hx, hy, hmeet, hxy, rfl⟩, hcarried⟩
    obtain ⟨hlt, hd⟩ | ⟨rfl, hd⟩ := hsign hxy
    · exact Or.inl ⟨by rw [hd], x, y, hx, hy, hlt, hmeet⟩
    · refine Or.inr ⟨by rw [hd], ?_, by linarith, x, hx⟩
      rw [hd] at hcarried
      simpa using hcarried
  · rintro (⟨rfl, x, y, hx, hy, hlt, hmeet⟩ | ⟨rfl, hprec, rfl, x, hx⟩)
    · refine ⟨⟨x, y, hx, hy, hmeet, hlt.le, ?_⟩, Or.inr ⟨.lt, by simp, by decide⟩⟩
      obtain ⟨-, hd⟩ | ⟨rfl, -⟩ := hsign hlt.le
      · rw [hd]
      · exact (lt_irrefl _ hlt).elim
    · exact ⟨⟨x, x, hx, hx, rfl, le_rfl, by simp [Direction.ofDistance]⟩, Or.inl hprec⟩

theorem InLoop.mem_dependences (h : c.InLoop id l a lower upper step)
    (hk : k.natAbs ≤ 2 ^ 20) (h₁ : c₁.natAbs ≤ 2 ^ 20) (h₂ : c₂.natAbs ≤ 2 ^ 20)
    {write read : Access} (hcopy : write.Copies read id l.index a k c₁ c₂)
    (hacc : c.accesses.filter (·.symbol == a) = [write, read]) :
    ∃ ds, c.dependences = .ok ds ∧ ∀ d : Dependence, d.source.symbol = a → (d ∈ ds ↔
      (d.direction = [.lt] ∧ (d.source = write ∨ d.sink = write) ∧
        ∃ o o' x y, (d.source, o) ∈ [(write, c₁), (read, c₂)] ∧
          (d.sink, o') ∈ [(write, c₁), (read, c₂)] ∧ IsIndexValue lower upper step x ∧
          IsIndexValue lower upper step y ∧ x < y ∧ k * x + o = k * y + o') ∨
      (d = ⟨read, write, [.eq]⟩ ∧ c₁ = c₂ ∧ lower < upper)) := by
  have hmem (x : Access) : (x ∈ c.accesses ∧ x.symbol = a) ↔ x = write ∨ x = read := by
    have hiff : x ∈ c.accesses.filter (·.symbol == a) ↔ x ∈ [write, read] := by rw [hacc]
    simpa using hiff
  have hpair (x : Access) : (x = write ∨ x = read) ↔ ∃ o, (x, o) ∈ [(write, c₁), (read, c₂)] := by
    simp [exists_or]
  have htouch {x : Access} {o : Int} (hx : (x, o) ∈ [(write, c₁), (read, c₂)]) :
      x.TouchesAt id l.index a k o ∧ o.natAbs ≤ 2 ^ 20 ∧ x.isDeclaration = false := by
    have hdecl := h.declares x ((hmem x).mpr ((hpair x).mpr ⟨o, hx⟩)).1
    obtain hx | hx : (x, o) = (write, c₁) ∨ (x, o) = (read, c₂) := by simpa using hx
    · cases hx
      exact ⟨hcopy.write_at, h₁, hdecl⟩
    · cases hx
      exact ⟨hcopy.read_at, h₂, hdecl⟩
  have hww := hcopy.isWrite
  have hrr := hcopy.isRead
  have hwrite : (write, c₁) ∈ [(write, c₁), (read, c₂)] := List.mem_cons_self
  have hread : (read, c₂) ∈ [(write, c₁), (read, c₂)] := List.mem_cons_of_mem _ List.mem_cons_self
  -- both stand in one statement, so that a read comes before a write and nothing else does
  have hprec {x y : Access} (hx : x = write ∨ x = read) (hy : y = write ∨ y = read) :
      x.precedes y = true ↔ x = read ∧ y = write := by
    have hst := hcopy.statement
    have hne : write ≠ read := fun heq => by simp [heq, hrr] at hww
    obtain rfl | rfl := hx <;> obtain rfl | rfl := hy <;>
      simp [Access.precedes, Access.isRead, hst, hww, hrr, hne, hne.symm]
  -- only `a` is written, so each pair is one of these two accesses
  have hreturns : ∀ e ∈ (groups c.accesses).flatMap pairs, ∃ es, ∃ vs,
      c.directions e.1 e.2 = .ok vs ∧ vs.map (Dependence.mk e.1 e.2) = es := by
    rintro ⟨s, t⟩ he
    obtain ⟨hs, ht, hsym, hw⟩ := mem_pairs.mp he
    have hsa : s.symbol = a := hw.elim (h.writes s hs) fun hw => hsym.trans (h.writes t ht hw)
    obtain ⟨o, ho⟩ := (hpair s).mp ((hmem s).mp ⟨hs, hsa⟩)
    obtain ⟨o', ho'⟩ := (hpair t).mp ((hmem t).mp ⟨ht, hsym ▸ hsa⟩)
    obtain ⟨hs, hso, -⟩ := htouch ho
    obtain ⟨ht, hto, htd⟩ := htouch ho'
    obtain ⟨vs, hvs, -⟩ := h.mem_directions hs ht hk hso hto htd
    exact ⟨_, vs, hvs, rfl⟩
  obtain ⟨found, hfound⟩ := exists_forall₂ hreturns
  have hds : c.dependences = .ok found.flatten := dependences_eq_ok.mpr ⟨found, hfound, rfl⟩
  refine ⟨_, hds, ?_⟩
  rintro ⟨s, t, v⟩ hd
  rw [PairContext.mem_dependences hds]
  dsimp only at hd ⊢
  constructor
  · rintro ⟨hs, ht, hsym, hw, vs, hvs, hv⟩
    obtain ⟨o, ho⟩ := (hpair s).mp ((hmem s).mp ⟨hs, hd⟩)
    obtain ⟨o', ho'⟩ := (hpair t).mp ((hmem t).mp ⟨ht, hsym ▸ hd⟩)
    obtain ⟨hs, hso, -⟩ := htouch ho
    obtain ⟨ht, hto, htd⟩ := htouch ho'
    obtain ⟨ws, hws, hiff⟩ := h.mem_directions hs ht hk hso hto htd
    obtain rfl : vs = ws := Except.ok.inj (hvs.symm.trans hws)
    obtain ⟨rfl, x, y, hx, hy, hlt, hmeet⟩ | ⟨rfl, ⟨-, hst⟩, rfl, hlt⟩ := (hiff v).mp hv
    · refine Or.inl ⟨rfl, ?_, o, o', x, y, ho, ho', hx, hy, hlt, hmeet⟩
      obtain rfl | rfl := (hpair s).mpr ⟨o, ho⟩
      · exact Or.inl rfl
      · obtain rfl | rfl := (hpair t).mpr ⟨o', ho'⟩
        · exact Or.inr rfl
        · simp [hrr] at hw
    · obtain ⟨rfl, rfl⟩ := (hprec ((hpair s).mpr ⟨o, ho⟩) ((hpair t).mpr ⟨o, ho'⟩)).mp hst
      refine Or.inr ⟨rfl, ?_, hlt⟩
      have hne : t ≠ s := fun heq => by simp [heq, hrr] at hww
      simp [hne, hne.symm] at ho ho'
      rw [← ho, ho']
  · rintro (⟨rfl, hw, o, o', x, y, ho, ho', hx, hy, hlt, hmeet⟩ | ⟨heq, hc, hlt⟩)
    · obtain ⟨hs, hso, -⟩ := htouch ho
      obtain ⟨ht, hto, htd⟩ := htouch ho'
      refine ⟨((hmem s).mpr ((hpair s).mpr ⟨o, ho⟩)).1, ((hmem t).mpr ((hpair t).mpr ⟨o', ho'⟩)).1,
        hs.symbol.trans ht.symbol.symm, ?_, ?_⟩
      · exact hw.imp (fun h => (congrArg (·.isWrite) h).trans hww)
          (fun h => (congrArg (·.isWrite) h).trans hww)
      · obtain ⟨vs, hvs, hiff⟩ := h.mem_directions hs ht hk hso hto htd
        exact ⟨vs, hvs, (hiff _).mpr (Or.inl ⟨rfl, x, y, hx, hy, hlt, hmeet⟩)⟩
    · cases heq
      obtain ⟨hs, hso, -⟩ := htouch hread
      obtain ⟨ht, hto, htd⟩ := htouch hwrite
      refine ⟨((hmem _).mpr (Or.inr rfl)).1, ((hmem _).mpr (Or.inl rfl)).1,
        hs.symbol.trans ht.symbol.symm, Or.inr hww, ?_⟩
      obtain ⟨vs, hvs, hiff⟩ := h.mem_directions hs ht hk hso hto htd
      exact ⟨vs, hvs, (hiff _).mpr (Or.inr ⟨rfl,
        ⟨hcopy.order, (hprec (Or.inr rfl) (Or.inl rfl)).mpr ⟨rfl, rfl⟩⟩, hc.symm, hlt⟩)⟩

end PairContext

namespace Analyzer

/-- The dependences on the array of a uniform copy are those between iterations that touch one
element, and those from the read to the write of one iteration. -/
theorem mem_dependences_uniformCopy (an : Analyzer) {st : Stmt} {i a : Symbol}
    {lower upper step k c c' : Int} (h : st.IsUniformCopy i a lower upper step k c c')
    (hlower : lower.natAbs ≤ 2 ^ 20) (hupper : upper.natAbs ≤ 2 ^ 20) (hpos : 1 ≤ step)
    (hstep : step ≤ 2 ^ 20) (hk : k.natAbs ≤ 2 ^ 20) (hc : c.natAbs ≤ 2 ^ 20)
    (hc' : c'.natAbs ≤ 2 ^ 20) (hcancel : an.cancelled = false)
    (hlimit : ∀ n, an.config.maxAccesses = some n → 4 ≤ n)
    (hi : an.symbols.kind? i = some .scalar) (ha : an.symbols.rank? a = some 1) :
    ∃ r write read, an.analyze [st] = .ok r ∧
      r.accesses.filter (·.symbol == a) = [write, read] ∧
      write.isWrite = true ∧ read.isWrite = false ∧
      ∀ d : Dependence, d.source.symbol = a →
        (d ∈ r.dependences ↔
          (d.direction = [.lt] ∧ (d.source = write ∨ d.sink = write) ∧
            ∃ c₁ c₂ x y, (d.source, c₁) ∈ [(write, c), (read, c')] ∧
              (d.sink, c₂) ∈ [(write, c), (read, c')] ∧ IsIndexValue lower upper step x ∧
              IsIndexValue lower upper step y ∧ x < y ∧ k * x + c₁ = k * y + c₂) ∨
          (d = ⟨read, write, [.eq]⟩ ∧ c = c' ∧ lower < upper)) := by
  have hfits {n : Int} (hn : n.natAbs ≤ 2 ^ 21) : Word.Fits n := Word.fits_of_natAbs (by omega)
  have hia : i ≠ a := by
    rintro rfl
    simp [SymbolTable.rank?, hi] at ha
  have hfun : an.collector.symbols.kind? i ≠ some .function := by
    show an.symbols.kind? i ≠ _
    simp [hi]
  obtain ⟨id, l, write, read, set, rfl, hlstep, hlo, hup, hwritten, hcollect, hloops, hacc, hdecl,
    hcopy⟩ := h.collect an.collector hpos (hfits (by omega)) (hfits (by omega))
      (hfits (by omega)) (hfits (by omega)) hia hfun hcancel hlimit
  have hin : PairContext.InLoop ⟨an.symbols, set.loops, an.regionEnv [st] set.loops, set.accesses⟩
      id l a lower upper step := {
    loop := by simp [hloops, IndexMap.get?_insert]
    lowerLinear := hlo
    upperLinear := hup
    step_eq := hlstep
    env := regionEnv_of_written hwritten
    rank := ha
    declares := fun b hb => (hdecl b hb).1
    writes := fun b hb => (hdecl b hb).2
    lower_le := hlower
    upper_le := hupper
    step_pos := hpos
    step_le := hstep }
  obtain ⟨ds, hds, hiff⟩ := hin.mem_dependences hk hc hc' hcopy hacc
  exact ⟨_, write, read, bind_eq_ok.mpr ⟨set, hcollect, bind_eq_ok.mpr
    ⟨ds, mapError_eq_ok.mpr hds, rfl⟩⟩, hacc, hcopy.isWrite, hcopy.isRead, hiff⟩

end Analyzer

namespace DoubledIndex

/-- `for (int i = 0; i < 10; i += 2) a[2 * i + 3] = a[2 * i + -1];` -/
def loop : Stmt := .forLoop
  { id := 0
    init := some (.decl ⟨[⟨0, [], false, some (.expr (.int 0 .none)), .automatic, .none⟩], .none⟩)
    cond := some (.binary .lt (.ident 0 .none) (.int 10 .none) .none)
    incr := some (.assign (.compound .add) (.ident 0 .none) (.int 2 .none) .none) }
  (.expr (.assign .plain (element (.int 3 .none)) (element (.unary .neg (.int 1 .none) .none))
    .none) ⟨.none, []⟩) ⟨.none, []⟩
where
  element (offset : Expr) : Expr := .subscript (.ident 1 .none)
    (.binary .add (.binary .mul (.int 2 .none) (.ident 0 .none) .none) offset .none) .none

def analyzer : Analyzer where
  symbols := ⟨#[⟨"i", .scalar, .none, 0⟩, ⟨"a", .array 1, .none, 0⟩]⟩
  calls := ⟨[], []⟩
  config := .default

theorem isUniformCopy_loop : loop.IsUniformCopy 0 1 0 10 2 2 3 (-1) :=
  ⟨⟨⟨_, _, _, rfl, rfl, rfl, rfl, rfl, rfl⟩, ⟨_, _, _, rfl, rfl, rfl⟩, ⟨_, _, _, rfl, rfl, rfl⟩⟩,
    ⟨rfl, rfl, rfl, rfl⟩, ⟨rfl, rfl, rfl, rfl⟩⟩

end DoubledIndex

open DoubledIndex in
/-- What one iteration writes is read in the next, and nothing that is read is written later. -/
theorem Analyzer.mem_dependences_doubledIndex :
    loop.IsUniformCopy 0 1 0 10 2 2 3 (-1) ∧
      ∃ r write read, analyzer.analyze [loop] = .ok r ∧
        r.accesses.filter (·.symbol == 1) = [write, read] ∧
        ⟨write, read, [.lt]⟩ ∈ r.dependences ∧ ∀ v, ⟨read, write, v⟩ ∉ r.dependences := by
  refine ⟨isUniformCopy_loop, ?_⟩
  obtain ⟨r, write, read, han, hacc, hw, hr, hdep⟩ := Analyzer.mem_dependences_uniformCopy
    analyzer isUniformCopy_loop (by decide) (by decide) (by decide) (by decide) (by decide)
    (by decide) (by decide) rfl nofun rfl rfl
  have hsymbol {x : Access} (hx : x ∈ [write, read]) : x.symbol = 1 := by
    rw [← hacc, List.mem_filter] at hx
    simpa using hx.2
  have hne : read ≠ write := fun heq => by simp [heq, hw] at hr
  refine ⟨r, write, read, han, hacc, ?_, fun v hv => ?_⟩
  · refine (hdep ⟨write, read, [.lt]⟩ (hsymbol (by simp))).mpr (Or.inl ⟨rfl, Or.inl rfl, 3, -1, 0,
      2, by simp, by simp, ⟨0, rfl, by decide⟩, ⟨1, rfl, by decide⟩, by decide, rfl⟩)
  · obtain ⟨-, -, o, o', x, y, ho, ho', -, -, hlt, hmeet⟩ | ⟨-, hoffset, -⟩ :=
      (hdep ⟨read, write, v⟩ (hsymbol (by simp))).mp hv
    · obtain rfl : o = -1 := by simpa [hne] using ho
      obtain rfl : o' = 3 := by simpa [hne.symm] using ho'
      omega
    · cases hoffset

end LoopLegality

import LoopLegality.Proofs.Dependences

namespace LoopLegality

namespace PairContext

variable {c : PairContext} {s t : Access} {ns : List Int} {vs : List (List Direction)}

theorem survives_of_mem_candidates (h : c.candidates s t = .ok vs) {v : List Direction}
    (hv : v ∈ vs) (hadmits : List.Forall₂ Direction.Admits v ns) {p : DependenceProblem}
    (hp : c.problem? s t = some p) : p.Survives [] (ns.map Direction.ofDistance) := by
  obtain ⟨ws, hws, rfl⟩ := (candidates_of_some hp).mp h
  exact DependenceProblem.survives_of_mem_directions hws (List.mem_filter.mp hv).1 hadmits

theorem exists_direction_iff_survives (h : c.directions s t = .ok vs)
    (hd : t.isDeclaration = false) (hlen : ns.length = s.commonLoops t) (hpos : LexPositive ns)
    (hz : ∀ n ∈ ns.take (c.privateLoops s t), n = 0) :
    (∃ v ∈ vs, List.Forall₂ Direction.Admits v ns) ↔
      ∀ p, c.problem? s t = some p → p.Survives [] (ns.map Direction.ofDistance) := by
  have hr := commonLoops_ne_zero hlen hpos
  obtain ⟨ws, hws, hiff⟩ := mem_directions h hd (.inl hr)
  simp only [hiff]
  constructor
  · rintro ⟨v, ⟨hv, -⟩, hadmits⟩ p hp
    exact survives_of_mem_candidates hws hv hadmits hp
  · intro hs
    obtain ⟨v, hv, hadmits, hsome⟩ := exists_candidate hws hlen hs hpos.lexNonnegative hz
    exact ⟨v, ⟨hv, .inr (hsome hpos.exists_ne_zero)⟩, hadmits⟩

/-- A symbol that is the index of no loop around the accesses. -/
def IsFree (c : PairContext) (s t : Access) (y : Symbol) : Prop :=
  ∀ id ∈ s.loops ++ t.loops, ∀ l, c.loops.get? id = some l → l.index ≠ y

/-- Two accesses, each at the values that the symbols have there, that may touch one element.
Any symbol may change its value in between. -/
structure Collides (c : PairContext) (s t : Access) (σ τ : Symbol → Int) : Prop where
  sourceEnv : c.env.Agrees σ
  sinkEnv : c.env.Agrees τ
  sourceBounds : ∀ id ∈ s.loops, ∀ l, c.loops.get? id = some l → l.Admits σ
  sinkBounds : ∀ id ∈ t.loops, ∀ l, c.loops.get? id = some l → l.Admits τ
  subscripts : ∀ a b, s.linearSubscripts? = some a → t.linearSubscripts? = some b →
    a.length = b.length → (∀ n, c.symbols.rank? s.symbol = some n → n = a.length) →
    a.map (·.eval σ) = b.map (·.eval τ)

theorem Collides.meets {σ τ : Symbol → Int} (h : c.Collides s t σ τ)
    (houtside : ∀ y, c.IsFree s t y → σ y = τ y) : c.Meets s t σ τ :=
  ⟨h.sourceEnv, h.sinkEnv, houtside, h.sourceBounds, h.sinkBounds, h.subscripts⟩

end PairContext

/-- Which symbols a region writes plays no part in what separates two accesses: a dependence that
admits given distances is reported exactly if no test of the pair rules them out. Accesses that
touch one element and are separated nevertheless find a symbol changed that is no index. -/
theorem Analyzer.exists_dependence_iff_survives {a : Analyzer} {stmts : List Stmt}
    {an : DependenceAnalysis} (h : a.analyze stmts = .ok an) {s t : Access}
    (hs : s ∈ an.accesses) (ht : t ∈ an.accesses) (hsym : s.symbol = t.symbol)
    (hw : s.isWrite = true ∨ t.isWrite = true) (hd : t.isDeclaration = false) {ns : List Int}
    (hlen : ns.length = s.commonLoops t) (hpos : LexPositive ns)
    (hz : ∀ n ∈ ns.take ((a.pairContext stmts an).privateLoops s t), n = 0) :
    ((∃ d ∈ an.dependences, d.source = s ∧ d.sink = t ∧
        List.Forall₂ Direction.Admits d.direction ns) ↔
      ∀ p, (a.pairContext stmts an).problem? s t = some p →
        p.Survives [] (ns.map Direction.ofDistance)) ∧
    ∀ σ τ, (a.pairContext stmts an).Collides s t σ τ →
      (a.pairContext stmts an).distances s t σ τ = ns →
      (¬ ∃ d ∈ an.dependences, d.source = s ∧ d.sink = t ∧
        List.Forall₂ Direction.Admits d.direction ns) →
      ∃ y, (a.pairContext stmts an).IsFree s t y ∧ σ y ≠ τ y := by
  obtain ⟨vs, hvs, hdirection⟩ := exists_dependence_iff_direction h hs ht hsym hw
  have hiff := (hdirection _).trans
    (PairContext.exists_direction_iff_survives hvs hd hlen hpos hz)
  refine ⟨hiff, fun σ τ hc hdist hnone => ?_⟩
  by_contra hsame
  push Not at hsame
  have hm := hc.meets hsame
  rw [hiff] at hnone
  exact hnone fun p hp => hdist ▸ hm.survives hp

namespace SlidingCopy

/-- `for (i = 0; i < 8; i++) { a[k] = a[k + 1]; k++; }` -/
def loop : ForLoop where
  header :=
    { id := 0
      init := some (.expr (.assign .plain (.ident 0 .none) (.int 0 .none) .none) .none)
      cond := some (.binary .lt (.ident 0 .none) (.int 8 .none) .none)
      incr := some (.unary .postIncr (.ident 0 .none) .none) }
  body := .compound
    [.expr (.assign .plain (.subscript (.ident 1 .none) (.ident 2 .none) .none)
      (.subscript (.ident 1 .none) (.binary .add (.ident 2 .none) (.int 1 .none) .none) .none)
      .none) ⟨.none, []⟩,
    .expr (.unary .postIncr (.ident 2 .none) .none) ⟨.none, []⟩] ⟨.none, []⟩
  site := ⟨.none, []⟩

def counted : CountedLoop where
  id := 0
  index := 0
  declaresIndex := false
  lower := .int 0 .none
  upper := .int 8 .none
  inclusive := false
  step := 1
  step_pos := Int.zero_lt_one

def access (symbol : Symbol) (isWrite : Bool) (subscripts : Option (List (Option Linear)))
    (statement order : Nat) : Access :=
  ⟨⟨symbol, isWrite, subscripts, false, .none⟩, [0], statement, statement - 1, order⟩

def write : Access := access 1 true (some [some (.var 2)]) 1 0

def read : Access := access 1 false (some [(Linear.var 2).add? (.const 1)]) 1 2

def context : PairContext where
  symbols := .empty
  loops := IndexMap.empty.insert 0 counted
  env := .empty
  accesses := [write, access 2 false none 1 1, read, access 2 false none 1 3,
    access 2 false none 2 4, access 2 true none 2 5]

def analysis : DependenceAnalysis where
  accesses := context.accesses
  dependences := context.dependences.toOption.getD []
  loops := context.loops

def valuation (n : Int) : Symbol → Int := fun _ => n

theorem collides_next : context.Collides read write (valuation 0) (valuation 1) := by
  have hbounds (n : Int) (h₀ : 0 ≤ n) (h₈ : n < 8) : counted.Admits (valuation n) := by
    refine ⟨fun lower h => ⟨n.toNat, ?_⟩, fun upper h => ?_⟩
    · obtain rfl : lower = .const 0 := (Option.some.inj h).symm
      show n = 0 + 1 * (n.toNat : Int)
      omega
    · obtain rfl : upper = .const 7 := (Option.some.inj h).symm
      show n ≤ 7
      omega
  have hall (n : Int) (h₀ : 0 ≤ n) (h₈ : n < 8) :
      ∀ id ∈ [0], ∀ l, context.loops.get? id = some l → l.Admits (valuation n) := by
    intro id hid l hl
    obtain rfl : id = 0 := List.mem_singleton.mp hid
    obtain rfl : counted = l := Option.some.inj hl
    exact hbounds n h₀ h₈
  refine ⟨nofun, nofun, hall 0 (by decide) (by decide), hall 1 (by decide) (by decide), ?_⟩
  intro a b ha hb _ _
  cases ha
  cases hb
  rfl

theorem isFree_k : context.IsFree read write 2 := by
  intro id hid l hl
  obtain rfl : id = 0 := by simpa [read, write, access] using hid
  obtain rfl : counted = l := Option.some.inj hl
  decide

end SlidingCopy

open SlidingCopy in
/-- The element that one iteration reads is written in the next, and the pair is separated. -/
theorem Analyzer.not_exists_dependence_slidingCopy :
    StridedCopy.analyzer.analyze [loop.stmt] = .ok analysis ∧
      context.Collides read write (valuation 0) (valuation 1) ∧
      (∃ w ∈ analysis.accesses, w.symbol = 2 ∧ w.isWrite = true) ∧ context.IsFree read write 2 ∧
      ¬ ∃ d ∈ analysis.dependences, d.source = read ∧ d.sink = write ∧
        List.Forall₂ Direction.Admits d.direction [1] := by
  have han : StridedCopy.analyzer.analyze [loop.stmt] = .ok analysis := by cbv
  have hs : read ∈ analysis.accesses := List.mem_of_getElem? (i := 2) rfl
  have ht : write ∈ analysis.accesses := List.mem_of_getElem? (i := 0) rfl
  have hlen : [(1 : Int)].length = read.commonLoops write := rfl
  have hz : ∀ n ∈ [(1 : Int)].take (context.privateLoops read write), n = 0 :=
    fun n hn => absurd hn List.not_mem_nil
  have hiff := (exists_dependence_iff_survives han hs ht rfl (.inr rfl) rfl hlen
    (Or.inl (by decide)) hz).1
  refine ⟨han, collides_next, ⟨_, List.mem_of_getElem? (i := 5) rfl, rfl, rfl⟩, isFree_k, ?_⟩
  rw [hiff]
  intro hsurvives
  obtain ⟨p, hp, hno⟩ : ∃ p, context.problem? read write = some p ∧ p.mayHold [] 1 = .ok false :=
    Option.map_eq_some_iff.mp (by cbv)
  exact (hsurvives p hp).1 hno

end LoopLegality

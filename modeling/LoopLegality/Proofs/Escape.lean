import LoopLegality.Proofs.Evaluated

namespace LoopLegality

/-- An array or pointer is an argument by name, or the address of a variable or of a part of it
is taken. -/
inductive Expr.GivesAway (t : SymbolTable) : Expr → Symbol → Prop
  | argument {f args s x s'} (hx : .ident x s' ∈ args) (hk : t.isArrayOrPointer x = true) :
      GivesAway t (.call f args s) x
  | address {e x} (s) (hx : e.baseVariable? = some x) : GivesAway t (.unary .addressOf e s) x

/-- Other functions may reach the variable: this one gives it away somewhere, or uses it and it
is global. -/
inductive Function.Exposes (p : Program) (f : Function) : Symbol → Prop
  | escaping {e x} (he : .expr e ∈ f.body.nodes) (hx : e.GivesAway p.symbols x) : Exposes p f x
  | global {g d n} (hg : g ∈ p.globals) (hd : d ∈ g.declarators)
      (hk : p.symbols.kind? d.symbol ≠ some .function) (hn : n ∈ f.body.nodes)
      (hx : d.symbol ∈ n.mentions) : Exposes p f d.symbol

theorem Expr.mem_escaping {t : SymbolTable} {e : Expr} {x : Symbol} :
    x ∈ e.escaping t ↔ e.GivesAway t x := by
  constructor
  · intro h
    cases e with
    | unary op e s =>
      cases op with
      | addressOf => exact .address s (Option.mem_toList.mp h)
      | _ => cases h
    | call f args s =>
      obtain ⟨hx, hk⟩ := List.mem_filter.mp h
      obtain ⟨i, hi, hx⟩ := List.mem_filterMap.mp hx
      obtain ⟨s', rfl⟩ := ident?_eq_some hx
      exact .argument hi hk
    | _ => cases h
  · intro h
    cases h with
    | argument hx hk => exact List.mem_filter.mpr ⟨List.mem_filterMap.mpr ⟨_, hx, rfl⟩, hk⟩
    | address s hx => exact Option.mem_toList.mpr hx

theorem Function.mem_addressTaken {f : Function} {t : SymbolTable} {x : Symbol} :
    x ∈ f.addressTaken t ↔ ∃ e, .expr e ∈ f.body.nodes ∧ e.GivesAway t x := by
  rw [addressTaken, mem_ascending, List.mem_flatMap]
  constructor
  · rintro ⟨n, hn, hx⟩
    cases n with
    | declarator d => cases hx
    | expr e => exact ⟨e, hn, Expr.mem_escaping.mp hx⟩
  · rintro ⟨e, he, hx⟩
    exact ⟨.expr e, he, Expr.mem_escaping.mpr hx⟩

/-- The summary of a function lists exactly what it exposes. -/
theorem CallSummary.mem_exposed {p : Program} {f : Function} {config : Config} {x : Symbol} :
    x ∈ (ofFunction p f config).exposed ↔ f.Exposes p x := by
  simp only [ofFunction, mem_ascending, List.mem_append, Function.mem_addressTaken]
  constructor
  · rintro (⟨e, he, hx⟩ | hx)
    · exact .escaping he hx
    · obtain ⟨hx, hused⟩ := List.mem_filter.mp hx
      obtain ⟨hx, hk⟩ := List.mem_filter.mp hx
      obtain ⟨d, hd, rfl⟩ := List.mem_map.mp hx
      obtain ⟨g, hg, hd⟩ := List.mem_flatMap.mp hd
      obtain ⟨n, hn, hx⟩ := List.mem_flatMap.mp (mem_ascending.mp (List.contains_iff_mem.mp hused))
      exact .global hg hd (by simpa using hk) hn hx
  · rintro (⟨he, hx⟩ | ⟨hg, hd, hk, hn, hx⟩)
    · exact Or.inl ⟨_, he, hx⟩
    · refine Or.inr (List.mem_filter.mpr ⟨List.mem_filter.mpr ⟨?_, by simpa using hk⟩, ?_⟩)
      · exact List.mem_map.mpr ⟨_, List.mem_flatMap.mpr ⟨_, hg, hd⟩, rfl⟩
      · exact List.contains_iff_mem.mpr (mem_ascending.mpr (List.mem_flatMap.mpr ⟨_, hn, hx⟩))

theorem CallSummary.mem_touchedBy {s : CallSummary} {name : String} {x : Symbol} :
    x ∈ s.touchedBy name ↔ name ∉ s.whitelist ∧ x ∈ s.exposed := by
  rw [touchedBy]
  by_cases h : name ∈ s.whitelist <;> simp [h]

namespace Touch

variable {c : Context} {ts : List Touch}

theorem mem_of_callEffects {s : Span} {xs : List Symbol} {x : Symbol} (hx : x ∈ xs)
    (h : callEffects c s xs = .ok ts) (w : Bool) : ⟨x, w, none, false, s⟩ ∈ ts := by
  induction xs generalizing ts with
  | nil => cases hx
  | cons y xs ih =>
    obtain ⟨ts₁, h₁, h⟩ := bind_eq_ok.mp h
    obtain ⟨ts₂, h₂, h⟩ := bind_eq_ok.mp h
    obtain ⟨ts₃, h₃, h⟩ := bind_eq_ok.mp h
    cases h
    obtain rfl := one_eq_ok h₁
    obtain rfl := one_eq_ok h₂
    obtain rfl | hx := List.mem_cons.mp hx
    · cases w <;> simp
    · exact List.mem_append_right _ (ih hx h₃)

theorem mem_of_call {f : Expr} {args : List Expr} {s : Span}
    (h : ofExpr c (.call f args s) = .ok ts) :
    ∃ g, f.ident? = some g ∧ ∀ x ∈ c.calls.touchedBy (c.symbols.name g), ∀ w,
      ⟨x, w, none, false, s⟩ ∈ ts := by
  rw [ofExpr] at h
  split at h
  · cases h
  · next g hg =>
    obtain ⟨ts₁, -, h⟩ := bind_eq_ok.mp h
    obtain ⟨ts₂, h₂, h⟩ := bind_eq_ok.mp h
    cases h
    exact ⟨g, hg, fun x hx w => List.mem_append_right _ (mem_of_callEffects hx h₂ w)⟩

end Touch

def Collector.ofFunction (p : Program) (f : Function) (config : Config) : Collector where
  symbols := p.symbols
  calls := .ofFunction p f config
  config := config

/-- What is passed by name or by address inside a call, and all that the function exposes
elsewhere, is read and written by the call, unless the callee is on the list. -/
theorem Collector.exists_access_of_call {p : Program} {f : Function} {config : Config}
    {stmts : List Stmt} {set : AccessSet}
    (h : (ofFunction p f config).collect stmts = .ok set)
    (hin : Stmt.nodesOf stmts ⊆ f.body.nodes) {chain : List LoopId} {callee : Expr}
    {args : List Expr} {span : Span}
    (hcall : Visited stmts chain .statement (.expr (.call callee args span)))
    (hname : ∀ g, callee.ident? = some g → p.symbols.name g ∉ config.whitelist) {x : Symbol}
    (hx : (∃ e ∈ (Expr.call callee args span).nodes, e.GivesAway p.symbols x) ∨ f.Exposes p x)
    (w : Bool) :
    ∃ a ∈ set.accesses, a.toTouch = ⟨x, w, none, false, span⟩ ∧ a.loops = chain := by
  have hexposed : f.Exposes p x := by
    obtain ⟨e, he, hx⟩ | hx := hx
    · exact .escaping (hin (hcall.inner_subset (List.mem_map_of_mem he))) hx
    · exact hx
  obtain ⟨nest, ts, hts, haccess⟩ := exists_access_of_visited h hcall
  obtain ⟨g, hg, htouch⟩ := Touch.mem_of_call hts
  have hmem : x ∈ (CallSummary.ofFunction p f config).touchedBy (p.symbols.name g) :=
    CallSummary.mem_touchedBy.mpr ⟨hname g hg, CallSummary.mem_exposed.mpr hexposed⟩
  exact haccess _ (htouch x hmem w)

namespace ShiftedArgument

def argument : Expr := .binary .add (.ident 0 .none) (.ident 2 .none) .none

def span : Span := ⟨⟨1, 54, 53⟩, ⟨1, 62, 61⟩⟩

def call : Expr := .call (.ident 3 .none) [argument] span

/-- `for (i = 0; i < n; i++) { g(a + i); … }` -/
def loop (rest : List Stmt) : Stmt :=
  .forLoop (NestedBound.header 0 2 (.ident 1 .none))
    (.compound (.expr call ⟨.none, []⟩ :: rest) ⟨.none, []⟩) ⟨.none, []⟩

def plain : Stmt := .expr (.call (.ident 4 .none) [.ident 0 .none] .none) ⟨.none, []⟩

def function (rest : List Stmt) : Function where
  name := "f"
  symbol := 5
  params := []
  body := loop rest
  span := .none

def info (name : String) (kind : Symbol.Kind) : Symbol.Info := ⟨name, kind, .none, 0⟩

def program (rest : List Stmt) : Program where
  functions := [function rest]
  globals := []
  symbols := ⟨#[info "a" (.array 1), info "n" .scalar, info "i" .scalar, info "g" .function,
    info "h" .function, info "f" .function]⟩

def unlisted : Config := { Config.default with whitelist := [] }

def collector (rest : List Stmt) : Collector := .ofFunction (program rest) (function rest) unlisted

def access (symbol : Symbol) (isWrite : Bool) (span : Span) (statement order : Nat) : Access :=
  ⟨⟨symbol, isWrite, none, false, span⟩, [0], statement, statement - 1, order⟩

def operands : List Access := [access 0 false .none 1 0, access 2 false .none 1 1]

def effects : List Access :=
  [access 0 false span 1 2, access 0 true span 1 3, access 0 false .none 2 4,
    access 0 false .none 2 5, access 0 true .none 2 6]

def accessSet (accesses : List Access) : AccessSet where
  accesses := accesses
  loops := IndexMap.empty.insert 0 (NestedBound.counted 0 2 (.ident 1 .none))

theorem visited_call (rest : List Stmt) :
    Visited [loop rest] [0] .statement (.expr call) :=
  ⟨loop rest, List.mem_singleton_self _,
    .body _ _ (.item _ List.mem_cons_self (.expr _ ⟨_, .refl, rfl⟩))⟩

theorem exposes_a : (function [plain]).Exposes (program [plain]) 0 := by
  refine .escaping (e := .call (.ident 4 .none) [.ident 0 .none] .none) ?_
    (.argument List.mem_cons_self rfl)
  simp [function, loop, plain, Stmt.nodes, Stmt.nodesOf, Expr.occurrences, Expr.nodes]

end ShiftedArgument

open ShiftedArgument in
/-- Once `h(a)` gives the array away, the call `g(a + i)` reads and writes it too. -/
theorem Collector.exists_access_shiftedArgument :
    (collector [plain]).collect [loop [plain]] = .ok (accessSet (operands ++ effects)) ∧
      ∀ w, ∃ a ∈ operands ++ effects, a.toTouch = ⟨0, w, none, false, span⟩ ∧ a.loops = [0] := by
  have h : (collector [plain]).collect [loop [plain]] = .ok (accessSet (operands ++ effects)) := rfl
  have hin : Stmt.nodesOf [loop [plain]] ⊆ (function [plain]).body.nodes := by
    simp [Stmt.nodesOf, function]
  exact ⟨h, exists_access_of_call h hin (visited_call _) nofun (Or.inr exposes_a)⟩

open ShiftedArgument in
/-- The array stands in the argument under no subscript, the callee is on no list, and the call
does not write it. -/
theorem Collector.not_written_shiftedArgument :
    (collector []).collect [loop []] = .ok (accessSet operands) ∧
      Visited [loop []] [0] .statement (.expr (.call (.ident 3 .none) [argument] span)) ∧
      (program []).symbols.name 3 ∉ unlisted.whitelist ∧
      (program []).symbols.isArrayOrPointer 0 = true ∧
      .ident 0 .none ∈ argument.nodes ∧ (∀ b i s, .subscript b i s ∉ argument.nodes) ∧
      ¬ ∃ a ∈ operands, a.symbol = 0 ∧ a.isWrite = true := by
  refine ⟨rfl, visited_call [], nofun, rfl, ?_, ?_, ?_⟩
  · simp [argument, Expr.nodes]
  · simp [argument, Expr.nodes]
  · rintro ⟨a, ha, -, hw⟩
    simp only [operands, List.mem_cons, List.not_mem_nil, or_false] at ha
    rcases ha with rfl | rfl <;> cases hw

end LoopLegality

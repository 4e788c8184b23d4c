import LoopLegality.Proofs.Dependences
import LoopLegality.Proofs.Evaluated

namespace LoopLegality

namespace Analyzer

variable {a : Analyzer} {stmts : List Stmt} {an : DependenceAnalysis} {x : Symbol}

/-- A statement of the region evaluates a call that may touch the variable. -/
def CallTouches (a : Analyzer) (stmts : List Stmt) (x : Symbol) : Prop :=
  ∃ chain f s args s', Visited stmts chain .statement (.expr (.call (.ident f s) args s')) ∧
    x ∈ a.calls.touchedBy (a.symbols.name f)

theorem regionEnv_of_written {loops : IndexMap CountedLoop}
    (hx : x ∈ Node.writesOf (Stmt.nodesOf stmts)) : (a.regionEnv stmts loops).get? x = none := by
  have hmem : x ∈ stmts.flatMap Stmt.written := by
    induction stmts with
    | nil => cases hx
    | cons st stmts ih =>
      rw [Stmt.nodesOf, Node.writesOf_append] at hx
      rw [List.flatMap_cons, List.mem_append]
      exact (List.mem_append.mp hx).imp Stmt.mem_written.mpr ih
  unfold regionEnv
  split
  · split
    · rw [IndexMap.get?_eraseAll, if_pos hmem]
    · rfl
  · rfl

theorem exists_write_iff (h : a.analyze stmts = .ok an) :
    (∃ w ∈ an.accesses, w.symbol = x ∧ w.isWrite = true) ↔
      ∃ chain n u, Visited stmts chain .statement n ∧ n.Acts a.collector.context u ∧
        u.symbol = x ∧ u.isWrite = true := by
  have hrec := Collector.records_iff (analyze_eq_ok h).1
  constructor
  · rintro ⟨w, hw, hx, hwrite⟩
    obtain ⟨n, hn, hu⟩ := executes_iff_visited.mp ((hrec w.loops w.use).mp ⟨w, hw, rfl, rfl⟩)
    exact ⟨w.loops, n, w.use, hn, hu, hx, hwrite⟩
  · rintro ⟨chain, n, u, hn, hu, rfl, hwrite⟩
    obtain ⟨w, hw, rfl, -⟩ := (hrec chain u).mpr (executes_iff_visited.mpr ⟨n, hn, hu⟩)
    exact ⟨w, hw, rfl, hwrite⟩

/-- A variable that is assumed constant throughout a region has a write access in it exactly if
some call may touch it: direct writes are accounted for, the effects of calls are not. -/
theorem written_iff_callTouches (h : a.analyze stmts = .ok an) {v : Int}
    (hx : (a.regionEnv stmts an.loops).get? x = some v) :
    (∃ w ∈ an.accesses, w.symbol = x ∧ w.isWrite = true) ↔ a.CallTouches stmts x := by
  rw [exists_write_iff h]
  constructor
  · rintro ⟨chain, n, u, hn, hu, rfl, hwrite⟩
    obtain hmem | ⟨f, s, args, s', rfl, htouch⟩ := hu.mem_writes_or_call hwrite
    · -- a part that names what it writes is one of those that the constants are cleared of
      have hwritten := List.mem_flatMap.mpr ⟨n, hn.mem_nodes, hmem⟩
      rw [regionEnv_of_written hwritten] at hx
      cases hx
    · exact ⟨chain, f, s, args, s', hn, htouch⟩
  · rintro ⟨chain, f, s, args, s', hn, htouch⟩
    exact ⟨chain, _, .of x none true, hn, .call s args s' true htouch, rfl, rfl⟩

end Analyzer

namespace OffsetByGlobal

/-- The loop in `n = 4; for (i = 0; i < 8; i++) { a[i] = a[i + n]; g(); }`. -/
def loop : Stmt :=
  .forLoop (NestedBound.header 0 2 (.int 8 .none)) (.compound
    [.expr (.assign .plain (.subscript (.ident 1 .none) (.ident 2 .none) .none)
      (.subscript (.ident 1 .none) (.binary .add (.ident 2 .none) (.ident 0 .none) .none) .none)
      .none) ⟨.none, []⟩,
    .expr (.call (.ident 3 .none) [] .none) ⟨.none, []⟩] ⟨.none, []⟩) ⟨.none, []⟩

def function : Function where
  name := "f"
  symbol := 4
  params := []
  body := .compound
    [.expr (.assign .plain (.ident 0 .none) (.int 4 .none) .none) ⟨.none, []⟩, loop] ⟨.none, []⟩
  span := .none

def info (name : String) (kind : Symbol.Kind) : Symbol.Info := ⟨name, kind, .none, 0⟩

def program : Program where
  functions := [function]
  globals := [⟨[⟨0, [], false, none, .permanent, .none⟩], .none⟩]
  symbols := ⟨#[info "n" .scalar, info "a" (.array 1), info "i" .scalar, info "g" .function,
    info "f" .function]⟩

def config : Config := { Config.default with whitelist := [] }

def analyzer : Analyzer where
  symbols := program.symbols
  calls := .ofFunction program function config
  config := config
  flow := some (.ofFunction function)

def access (symbol : Symbol) (isWrite : Bool) (subscripts : Option (List (Option Linear)))
    (statement order : Nat) : Access :=
  ⟨⟨symbol, isWrite, subscripts, false, .none⟩, [0], statement, statement - 1, order⟩

def write : Access := access 1 true (some [some (.var 2)]) 1 0

def read : Access := access 1 false (some [(Linear.var 2).add? (.var 0)]) 1 2

def loops : IndexMap CountedLoop :=
  IndexMap.empty.insert 0 (NestedBound.counted 0 2 (.int 8 .none))

def context : PairContext where
  symbols := program.symbols
  loops := loops
  env := analyzer.regionEnv [loop] loops
  accesses := [write, access 2 false none 1 1, read, access 2 false none 1 3,
    access 0 false none 1 4, access 0 false none 2 5, access 0 true none 2 6]

def analysis : DependenceAnalysis where
  accesses := context.accesses
  dependences := context.dependences.toOption.getD []
  loops := context.loops

theorem callTouches_n : analyzer.CallTouches [loop] 0 := by
  refine ⟨[0], 3, .none, [], .none, ⟨loop, List.mem_singleton_self _, ?_⟩, ?_⟩
  · exact .body _ _ (.item _ (List.mem_cons_of_mem _ (List.mem_singleton_self _))
      (.expr _ ⟨_, .refl, rfl⟩))
  · exact List.mem_singleton_self _

end OffsetByGlobal

open OffsetByGlobal in
/-- The call may write `n`, which still counts as 4, so that the read of `a[i + n]` is never met
by a write of an earlier iteration. -/
theorem Analyzer.written_offsetByGlobal :
    analyzer.analyze [loop] = .ok analysis ∧
      (analyzer.regionEnv [loop] analysis.loops).get? 0 = some 4 ∧
      (∃ w ∈ analysis.accesses, w.symbol = 0 ∧ w.isWrite = true) ∧
      ¬ ∃ d ∈ analysis.dependences, d.source = write ∧ d.sink = read := by
  have han : analyzer.analyze [loop] = .ok analysis := by cbv
  have henv : (analyzer.regionEnv [loop] analysis.loops).get? 0 = some 4 := rfl
  refine ⟨han, henv, (written_iff_callTouches han henv).mpr callTouches_n, ?_⟩
  have hs : write ∈ analysis.accesses := List.mem_of_getElem? (i := 0) rfl
  have ht : read ∈ analysis.accesses := List.mem_of_getElem? (i := 2) rfl
  have hnone : (analyzer.pairContext [loop] analysis).directions write read = .ok [] := by cbv
  rintro ⟨d, hd, hsource, hsink⟩
  obtain ⟨vs, hvs, hiff⟩ := exists_dependence_iff_direction han hs ht rfl (Or.inl rfl)
  obtain rfl : vs = [] := Except.ok.inj (hvs.symm.trans hnone)
  obtain ⟨v, hv, -⟩ := (hiff fun _ => True).mp ⟨d, hd, hsource, hsink, trivial⟩
  cases hv

end LoopLegality

import LoopLegality.Proofs.Constants
import LoopLegality.Proofs.Exact

namespace LoopLegality

namespace ConstEnv

/-- What the first environment knows the second one knows as well. -/
def Below (env env' : ConstEnv) : Prop := ∀ x n, env.get? x = some n → env'.get? x = some n

variable {env env' fnv fnv' : ConstEnv}

theorem below_empty (env : ConstEnv) : Below .empty env := fun _ _ h => by cases h

theorem Below.erase (h : env.Below env') (x : Symbol) : Below (env.erase x) (env'.erase x) := by
  intro y n hy
  rw [IndexMap.get?_erase] at hy ⊢
  by_cases hx : y = x
  · simp [hx] at hy
  · rw [if_neg hx] at hy ⊢
    exact h y n hy

theorem Below.eraseAll (h : env.Below env') (xs : List Symbol) :
    Below (env.eraseAll xs) (env'.eraseAll xs) := by
  intro y n hy
  rw [IndexMap.get?_eraseAll] at hy ⊢
  by_cases hx : y ∈ xs
  · simp [hx] at hy
  · rw [if_neg hx] at hy ⊢
    exact h y n hy

theorem Below.meet (h : env.Below env') (hf : fnv.Below fnv') :
    Below (env.meet fnv) (env'.meet fnv') := by
  intro y n hy
  rw [IndexMap.get?_meet] at hy ⊢
  exact ⟨h y n hy.1, hf y n hy.2⟩

/-- A value that is known from less is known from more. Where only the second one is known, the
variable is forgotten below and bound above. -/
theorem Below.assign (h : env.Below env') (x : Symbol) {value value' : Option Int}
    (hv : ∀ n, value = some n → value' = some n) :
    Below (env.assign x value) (env'.assign x value') := by
  cases value with
  | some n =>
    rw [hv n rfl]
    intro y m hy
    rw [ConstEnv.assign, IndexMap.get?_insert] at hy ⊢
    by_cases hx : x = y
    · simpa [hx] using hy
    · rw [if_neg hx] at hy ⊢
      exact h y m hy
  | none =>
    cases value' with
    | none => exact h.erase x
    | some k =>
      intro y m hy
      rw [ConstEnv.assign, IndexMap.get?_erase] at hy
      by_cases hx : y = x
      · simp [hx] at hy
      · rw [if_neg hx] at hy
        rw [ConstEnv.assign, IndexMap.get?_insert, if_neg (Ne.symm hx)]
        exact h y m hy

end ConstEnv

/-- An expression with a value keeps it when more is known: the operands that evaluation came to
have their values still, so it takes the same way. -/
theorem Expr.eval?_of_below {env env' : ConstEnv} (h : env.Below env') : ∀ (e : Expr) {n : Int},
    e.eval? env = some n → e.eval? env' = some n
  | .int _ _, _, he | .char _ _, _, he => he
  | .ident x _, n, he => h x n he
  | .unary op e _, n, he => by
    obtain ⟨a, ha, hop⟩ := Option.bind_eq_some_iff.mp he
    exact Option.bind_eq_some_iff.mpr ⟨a, eval?_of_below h e ha, hop⟩
  | .binary op l r _, n, he => by
    obtain ⟨a, ha, hs | ⟨hs, b, hb, hop⟩⟩ := eval?_binary_eq_some he
    · simp [eval?, eval?_of_below h l ha, hs]
    · simp [eval?, eval?_of_below h l ha, eval?_of_below h r hb, hs, hop]
  | .conditional c t f _, n, he => by
    obtain ⟨hc, he⟩ | ⟨a, hc, ha, he⟩ := eval?_conditional_eq_some he
    · simp [eval?, eval?_of_below h c hc, eval?_of_below h f he]
    · simp [eval?, eval?_of_below h c hc, eval?_of_below h t he, ha]
  | .cast _ e _, _, he => eval?_of_below h e he
  | .float .., _, he | .str .., _, he | .field .., _, he | .subscript .., _, he
  | .call .., _, he | .assign .., _, he | .sizeOfType _, _, he | .sizeOf .., _, he
  | .comma .., _, he => by cases he

namespace ConstEnv

variable {env env' : ConstEnv}

theorem Below.afterDeclarator (h : env.Below env') (d : Declarator) :
    Below (env.afterDeclarator d) (env'.afterDeclarator d) := by
  rw [ConstEnv.afterDeclarator, ConstEnv.afterDeclarator]
  split
  · exact h.erase d.symbol
  · cases d.init with
    | none => exact h.erase d.symbol
    | some i =>
      cases i with
      | list is => exact below_empty _
      | expr e =>
        dsimp only
        split
        · exact below_empty _
        · exact h.assign d.symbol fun n hn => e.eval?_of_below h hn

theorem Below.afterDeclarators (h : env.Below env') (ds : List Declarator) :
    Below (ds.foldl ConstEnv.afterDeclarator env) (ds.foldl ConstEnv.afterDeclarator env') := by
  induction ds generalizing env env' with
  | nil => exact h
  | cons d ds ih => exact ih (h.afterDeclarator d)

theorem Below.afterWrite (h : env.Below env') (place : Expr) {value value' : Symbol → Option Int}
    (hv : ∀ x n, value x = some n → value' x = some n) :
    Below (env.afterWrite place value) (env'.afterWrite place value') := by
  cases place with
  | ident x s => exact h.assign x (hv x)
  | subscript b i s | field o m a s =>
    rw [ConstEnv.afterWrite, ConstEnv.afterWrite]
    split
    · exact below_empty _
    · exact h
  | _ => exact below_empty _

theorem Below.afterExpr (h : env.Below env') (e : Expr) :
    Below (env.afterExpr e) (env'.afterExpr e) := by
  cases e with
  | assign op l r s =>
    rw [ConstEnv.afterExpr, ConstEnv.afterExpr]
    split
    · exact below_empty _
    · refine h.afterWrite l fun x n hn => ?_
      cases op with
      | plain => exact r.eval?_of_below h hn
      | compound op =>
        simp only [Option.bind_eq_bind, Option.bind_eq_some_iff] at hn ⊢
        obtain ⟨a, ha, b, hb, hop⟩ := hn
        exact ⟨a, h x a ha, b, r.eval?_of_below h hb, hop⟩
  | unary op e s =>
    rw [afterExpr_unary, afterExpr_unary]
    cases op.change? with
    | none => exact below_empty _
    | some d =>
      refine h.afterWrite e fun x n hn => ?_
      obtain ⟨a, ha, hadd⟩ := Option.bind_eq_some_iff.mp hn
      exact Option.bind_eq_some_iff.mpr ⟨a, h x a ha, hadd⟩
  | _ => exact below_empty _

theorem Below.afterInit (h : env.Below env') (init : Option ForInit) :
    Below (env.afterInit init) (env'.afterInit init) := by
  cases init with
  | none => exact h
  | some i =>
    cases i with
    | decl d => exact h.afterDeclarators d.declarators
    | expr e s => exact h.afterExpr e
    | null s => exact h

end ConstEnv

namespace Flow

open ConstEnv (below_empty)

/-- One loop, with less known at its iterations and with more. -/
def RecordBelow (r r' : LoopId × ConstEnv) : Prop := r.1 = r'.1 ∧ r.2.Below r'.2

structure Below (flow flow' : Flow) : Prop where
  exit : flow.exit.Below flow'.exit
  loops : List.Forall₂ RecordBelow flow.loops flow'.loops

theorem below_straight {env env' : ConstEnv} (h : env.Below env') :
    (straight env).Below (straight env') := ⟨h, .nil⟩

mutual

theorem Below.ofStmt : ∀ (s : Stmt) {env env' : ConstEnv}, env.Below env' →
    (Flow.ofStmt s env).Below (Flow.ofStmt s env')
  | .null _, _, _, h => below_straight h
  | .decl ds _, _, _, h => below_straight (h.afterDeclarators ds)
  | .expr e _, _, _, h => below_straight (h.afterExpr e)
  | .compound ss _, _, _, h => Below.ofStmts ss h
  | .branch c t none _, env, env', h => by
    have harm := Below.ofStmt t h
    rw [Flow.ofStmt, Flow.ofStmt]
    split
    · exact ⟨below_empty _, (Below.ofStmt t (below_empty _)).loops⟩
    · exact ⟨harm.exit.meet h, harm.loops⟩
  | .branch c t (some e) _, env, env', h => by
    have harms {fnv fnv' : ConstEnv} (hf : fnv.Below fnv') :
        List.Forall₂ RecordBelow ((Flow.ofStmt t fnv).loops ++ (Flow.ofStmt e fnv).loops)
          ((Flow.ofStmt t fnv').loops ++ (Flow.ofStmt e fnv').loops) :=
      List.rel_append (Below.ofStmt t hf).loops (Below.ofStmt e hf).loops
    rw [Flow.ofStmt, Flow.ofStmt]
    split
    · exact ⟨below_empty _, harms (below_empty _)⟩
    · exact ⟨(Below.ofStmt t h).exit.meet (Below.ofStmt e h).exit, harms h⟩
  | .forLoop f b s, env, env', h => by
    -- what the loop writes is read off the syntax, so both sides forget the same variables
    have hinv := (h.afterInit f.init).eraseAll (Stmt.forLoop f b s).written
    exact ⟨hinv, .cons ⟨rfl, hinv⟩ (Below.ofStmt b hinv).loops⟩
  | .whileLoop _ b _, _, _, _ | .doWhile b _ _, _, _, _ | .switch _ b _, _, _, _
  | .label _ b _, _, _, _ => ⟨below_empty _, (Below.ofStmt b (below_empty _)).loops⟩
  | .ret .., _, _, _ | .caseLabel .., _, _, _ | .defaultLabel _, _, _, _ | .break _, _, _, _
  | .continue _, _, _, _ | .goto .., _, _, _ => below_straight (below_empty _)

theorem Below.ofStmts : ∀ (ss : List Stmt) {env env' : ConstEnv}, env.Below env' →
    (Flow.ofStmts ss env).Below (Flow.ofStmts ss env')
  | [], _, _, h => below_straight h
  | s :: ss, _, _, h =>
    have hfirst := Below.ofStmt s h
    have hrest := Below.ofStmts ss hfirst.exit
    ⟨hrest.exit, List.rel_append hfirst.loops hrest.loops⟩

end

theorem exists_lookup_of_mem {rs : List (LoopId × ConstEnv)} {id : LoopId}
    (h : id ∈ rs.map Prod.fst) : ∃ e, rs.lookup id = some e := by
  cases hl : rs.lookup id with
  | some e => exact ⟨e, rfl⟩
  | none =>
    obtain ⟨r, hr, rfl⟩ := List.mem_map.mp h
    simpa using List.lookup_eq_none_iff.mp hl r hr

theorem exists_lookup_of_below {rs rs' : List (LoopId × ConstEnv)}
    (h : List.Forall₂ RecordBelow rs rs') {id : LoopId} {e : ConstEnv}
    (he : rs.lookup id = some e) : ∃ e', rs'.lookup id = some e' ∧ e.Below e' := by
  induction h with
  | nil => cases he
  | @cons r r' rs rs' hr _ ih =>
    obtain ⟨k, fnv⟩ := r
    obtain ⟨k', fnv'⟩ := r'
    obtain ⟨rfl, hbelow⟩ : k = k' ∧ fnv.Below fnv' := hr
    rw [List.lookup_cons] at he ⊢
    cases hk : id == k with
    | true =>
      rw [hk] at he
      cases he
      exact ⟨fnv', rfl, hbelow⟩
    | false =>
      rw [hk] at he
      exact ih he

/-- Whoever knows more before a list of statements knows more after it, and at the iterations of
each of its loops. -/
theorem below_of_entry (ss : List Stmt) {env env' : ConstEnv} (h : env.Below env') :
    (∀ sel ∈ Selection.loopsOf 0 [] ss, ∀ l, sel.stmt.forLoop? = some l →
      ∃ e e', (ofStmts ss env).envAt? l.header.id = some e ∧
        (ofStmts ss env').envAt? l.header.id = some e' ∧ e.Below e') ∧
      (ofStmts ss env).exit.Below (ofStmts ss env').exit := by
  have hbelow := Below.ofStmts ss h
  refine ⟨fun sel hsel l hl => ?_, hbelow.exit⟩
  have hid : l.header.id ∈ (ofStmts ss env).loops.map Prod.fst := by
    rw [map_fst_eq_filterMap (loopsIn_isFor ss env 0 [])]
    exact List.mem_filterMap.mpr ⟨sel, hsel, by rw [hl]; rfl⟩
  obtain ⟨e, he⟩ := exists_lookup_of_mem hid
  obtain ⟨e', he', hee⟩ := exists_lookup_of_below hbelow.loops he
  exact ⟨e, e', he, he', hee⟩

namespace ChosenBound

/-- `n = k ? 4 : j;` -/
def choice : Stmt :=
  .expr (.assign .plain (.ident 0 .none)
    (.conditional (.ident 3 .none) (.int 4 .none) (.ident 4 .none) .none) .none) ⟨.none, []⟩

def body : List Stmt := [choice, BoundedFill.loop.stmt]

def less : ConstEnv := IndexMap.empty.insert 3 1

def more : ConstEnv := less.insert 4 9

theorem less_below_more : less.Below more := by
  intro x n hx
  have hx4 : 4 ≠ x := by
    rintro rfl
    cases hx
  rw [more, IndexMap.get?_insert, if_neg hx4]
  exact hx

theorem loop_mem : ⟨[choice], BoundedFill.loop.stmt, [], 0⟩ ∈ Selection.loopsOf 0 [] body :=
  List.mem_cons_self

end ChosenBound

open ChosenBound in
/-- The bound is four at the iterations from either entry, though only one knows `j`. -/
theorem below_chosenBound : less.Below more ∧
    ∃ e e', (ofStmts body less).envAt? 0 = some e ∧ (ofStmts body more).envAt? 0 = some e' ∧
      e.Below e' ∧ e.get? 0 = some 4 ∧ e.get? 4 = none ∧ e'.get? 4 = some 9 := by
  obtain ⟨e, e', he, he', hee⟩ := (below_of_entry body less_below_more).1 _ loop_mem _ rfl
  refine ⟨less_below_more, e, e', he, he', hee, ?_⟩
  cases he
  cases he'
  exact ⟨rfl, rfl, rfl⟩

end Flow

end LoopLegality

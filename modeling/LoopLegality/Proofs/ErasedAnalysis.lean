import LoopLegality.Proofs.Erasure
import LoopLegality.Proofs.Results

namespace LoopLegality

def mapResult {ε α : Type} (f : ε → ε) (g : α → α) : Except ε α → Except ε α
  | .error e => .error (f e)
  | .ok a => .ok (g a)

theorem mapResult_bind {ε α β : Type} {f : ε → ε} {g : α → α} {h : β → β} {x x' : Except ε α}
    {k k' : α → Except ε β} (hx : x' = mapResult f g x)
    (hk : ∀ a, k' (g a) = mapResult f h (k a)) : (x' >>= k') = mapResult f h (x >>= k) := by
  subst hx
  cases x with
  | error e => rfl
  | ok a => exact hk a

namespace IndexMap

variable {α β : Type}

def mapValues (g : α → β) (m : IndexMap α) : IndexMap β where
  entries := m.entries.map fun e => (e.1, g e.2)
  sorted := List.pairwise_map.mpr m.sorted

@[simp] theorem keys_mapValues (g : α → β) (m : IndexMap α) : (m.mapValues g).keys = m.keys := by
  simp [keys, mapValues, Function.comp_def]

theorem find_map (g : α → β) (k : Nat) (es : List (Nat × α)) :
    find k (es.map fun e => (e.1, g e.2)) = (find k es).map g := by
  induction es with
  | nil => rfl
  | cons e es ih =>
    simp only [List.map_cons, find, ih]
    split <;> rfl

@[simp] theorem get?_mapValues (g : α → β) (m : IndexMap α) (k : Nat) :
    (m.mapValues g).get? k = (m.get? k).map g :=
  find_map g k m.entries

theorem map_insertEntry (g : α → β) (k : Nat) (v : α) (es : List (Nat × α)) :
    (insertEntry k v es).map (fun e => (e.1, g e.2)) =
      insertEntry k (g v) (es.map fun e => (e.1, g e.2)) := by
  induction es with
  | nil => rfl
  | cons e es ih =>
    simp only [insertEntry, List.map_cons, ← ih]
    split
    · rfl
    · split <;> rfl

@[simp] theorem mapValues_insert (g : α → β) (m : IndexMap α) (k : Nat) (v : α) :
    (m.insert k v).mapValues g = (m.mapValues g).insert k (g v) := by
  simp [insert, mapValues, map_insertEntry]

end IndexMap

namespace ConstEnv

@[simp] theorem afterDeclarator_erase (env : ConstEnv) (d : Declarator) :
    env.afterDeclarator d.erase = env.afterDeclarator d := by
  obtain ⟨x, dims, p, init, st, s⟩ := d
  rcases init with _ | e | items <;> simp [afterDeclarator, Declarator.erase]

@[simp] theorem afterWrite_erase (env : ConstEnv) (e : Expr) (value : Symbol → Option Int) :
    env.afterWrite e.erase value = env.afterWrite e value := by
  have h := e.hasEffect_erase
  cases e <;> simp_all [afterWrite]

@[simp] theorem afterExpr_erase (env : ConstEnv) (e : Expr) :
    env.afterExpr e.erase = env.afterExpr e := by
  cases e <;> simp [afterExpr]

theorem foldl_afterDeclarator_erase (ds : List Declarator) (env : ConstEnv) :
    (ds.map Declarator.erase).foldl afterDeclarator env = ds.foldl afterDeclarator env := by
  simp [List.foldl_map]

@[simp] theorem afterInit_erase (env : ConstEnv) (i : Option ForInit) :
    env.afterInit (i.map ForInit.erase) = env.afterInit i := by
  rcases i with _ | d | ⟨e, s⟩ <;> simp [afterInit, foldl_afterDeclarator_erase]

end ConstEnv

namespace Flow

mutual

theorem ofStmt_erase : ∀ (s : Stmt) (env : ConstEnv), ofStmt s.erase env = ofStmt s env
  | .null _, _ => rfl
  | .decl ds _, env => by simp [ofStmt, ConstEnv.foldl_afterDeclarator_erase]
  | .expr e _, env => by simp [ofStmt]
  | .compound ss _, env => ofStmts_erase ss env
  | .branch c t none _, env => by simp [ofStmt, ofStmt_erase t]
  | .branch c t (some e) _, env => by simp [ofStmt, ofStmt_erase t, ofStmt_erase e]
  | .forLoop h b s, env => by
    have hw := (Stmt.forLoop h b s).written_erase
    rw [Stmt.erase] at hw
    simp [ofStmt, ofStmt_erase b, hw]
  | .whileLoop _ b _, env => by simp [ofStmt, ofStmt_erase b]
  | .doWhile b _ _, env => by simp [ofStmt, ofStmt_erase b]
  | .switch _ b _, env => by simp [ofStmt, ofStmt_erase b]
  | .label _ b _, env => by simp [ofStmt, ofStmt_erase b]
  | .ret .., _ | .caseLabel .., _ | .defaultLabel _, _ | .break _, _ | .continue _, _
  | .goto .., _ => rfl

theorem ofStmts_erase : ∀ (ss : List Stmt) (env : ConstEnv),
    ofStmts (Stmt.eraseAll ss) env = ofStmts ss env
  | [], _ => rfl
  | s :: ss, env => by simp [ofStmts, ofStmt_erase s, ofStmts_erase ss]

end

@[simp] theorem ofFunction_erase (f : Function) : ofFunction f.erase = ofFunction f := by
  simp [ofFunction, Function.statements, ofStmts_erase]

end Flow

@[simp] theorem CallSummary.ofFunction_erase (p : Program) (f : Function) (config : Config) :
    ofFunction p.erase f.erase config = ofFunction p f config := by
  simp [ofFunction, Function.addressTaken, List.flatMap_map, List.map_flatMap, Function.comp_def]

@[simp] theorem Linear.ofExpr?_erase : ∀ e : Expr, ofExpr? e.erase = ofExpr? e
  | .int .. | .float .. | .char .. | .str .. | .ident .. | .field .. | .subscript .. | .call ..
  | .assign .. | .conditional .. | .cast .. | .sizeOfType _ | .sizeOf .. | .comma .. => rfl
  | .unary op e _ => by cases op <;> simp [ofExpr?, Linear.ofExpr?_erase e]
  | .binary op l r _ => by
    simp [ofExpr?, Linear.ofExpr?_erase l, Linear.ofExpr?_erase r]

namespace CountedLoop

@[simps] def erase (l : CountedLoop) : CountedLoop :=
  { l with lower := l.lower.erase, upper := l.upper.erase }

theorem start?_erase (i : ForInit) :
    start? i.erase = (start? i).map fun r => (r.1, r.2.1.erase, r.2.2) := by
  rcases i with ⟨ds, s⟩ | ⟨e, s⟩ | s
  · match ds with
    | [] | _ :: _ :: _ => rfl
    | [⟨x, dims, p, init, st, s⟩] =>
      rcases init with _ | e | items
      · simp [start?, Declaration.erase, Declarator.erase]
      · simp only [ForInit.erase_decl, Declaration.erase, Declarator.erase, List.map_cons,
          List.map_nil, start?, List.isEmpty_map]
        split <;> rfl
      · simp [start?, Declaration.erase, Declarator.erase]
  · cases e with
    | assign op l r s =>
      cases op with
      | plain => cases l <;> rfl
      | compound op => rfl
    | _ => rfl
  · rfl

theorem limit?_erase (x : Symbol) (e : Expr) :
    limit? x e.erase = (limit? x e).map fun r => (r.1.erase, r.2) := by
  cases e with
  | binary op l r s =>
    cases op with
    | lt | le =>
      simp only [Expr.erase, limit?, Expr.ident?_erase]
      split <;> rfl
    | _ => rfl
  | _ => rfl

theorem step?_erase (x : Symbol) (e : Expr) : step? x e.erase = step? x e := by
  cases e with
  | unary op e s => cases op <;> simp [step?]
  | assign op l r s =>
    cases op with
    | plain =>
      cases r with
      | binary op a b s => cases op <;> simp [step?]
      | _ => simp [step?]
    | compound op => cases op <;> simp [step?]
  | _ => rfl

theorem ofHeader?_erase (h : ForHeader) : ofHeader? h.erase = (ofHeader? h).map erase := by
  obtain ⟨id, init, cond, incr⟩ := h
  cases init with
  | none => rfl
  | some i =>
    cases hi : start? i with
    | none => simp [ofHeader?, start?_erase, hi]
    | some r =>
      cases cond with
      | none => simp [ofHeader?]
      | some e =>
        cases he : limit? r.1 e with
        | none => simp [ofHeader?, start?_erase, hi, limit?_erase, he]
        | some u =>
          cases incr with
          | none => simp [ofHeader?]
          | some d =>
            cases hd : step? r.1 d with
            | none => simp [ofHeader?, start?_erase, hi, limit?_erase, he, step?_erase, hd]
            | some n =>
              by_cases hn : 0 < n <;>
                simp [ofHeader?, start?_erase, hi, limit?_erase, he, step?_erase, hd, hn, erase]

@[simp] theorem lowerLinear?_erase (l : CountedLoop) : l.erase.lowerLinear? = l.lowerLinear? := by
  simp [lowerLinear?]

@[simp] theorem upperLinear?_erase (l : CountedLoop) : l.erase.upperLinear? = l.upperLinear? := by
  simp [upperLinear?]

@[simp] theorem lowerBound?_erase (l : CountedLoop) (env : ConstEnv) :
    l.erase.lowerBound? env = l.lowerBound? env := by
  simp [lowerBound?]

@[simp] theorem upperBound?_erase (l : CountedLoop) (env : ConstEnv) :
    l.erase.upperBound? env = l.upperBound? env := by
  simp [upperBound?]

@[simp] theorem tripCount?_erase (l : CountedLoop) (env : ConstEnv) :
    l.erase.tripCount? env = l.tripCount? env := by
  simp [tripCount?]

end CountedLoop

def Unsupported.erase (u : Unsupported) : Unsupported := ⟨u.cause, .none⟩

namespace Touch

@[simps] def erase (t : Touch) : Touch := { t with span := .none }

@[simps] def Context.erase (c : Context) : Context := { c with symbols := c.symbols.erase }

namespace Result

def erase (r : Result) : Result := mapResult Unsupported.erase (List.map Touch.erase) r

theorem erase_append (x y : Result) :
    erase (do return (← x) ++ (← y)) = do return (← erase x) ++ (← erase y) := by
  cases x with
  | error e => rfl
  | ok ts =>
    cases y with
    | error e => rfl
    | ok us => exact congrArg Except.ok List.map_append

theorem erase_append₃ (x y z : Result) :
    erase (do return (← x) ++ (← y) ++ (← z)) =
      do return (← erase x) ++ (← erase y) ++ (← erase z) := by
  cases x with
  | error e => rfl
  | ok ts =>
    cases y with
    | error e => rfl
    | ok us =>
      cases z with
      | error e => rfl
      | ok vs =>
        have h : (ts ++ us ++ vs).map Touch.erase =
            ts.map Touch.erase ++ us.map Touch.erase ++ vs.map Touch.erase := by simp
        exact congrArg Except.ok h

end Result

variable (c : Context)

theorem refuse_erase (cause : Unsupported.Cause) (s : Span) :
    refuse cause .none = (refuse cause s).erase := rfl

theorem one_erase (t : Touch) : one c.erase t.erase = (one c t).erase := by
  simp only [one, erase_isWrite, erase_symbol, Context.erase_indices, Context.erase_symbols,
    SymbolTable.name_erase]
  split <;> rfl

theorem scalar_erase (x : Symbol) (w : Bool) (s : Span) :
    scalar c.erase x w .none = (scalar c x w s).erase :=
  one_erase c ⟨x, w, none, false, s⟩

theorem chain_erase : ∀ e : Expr, chain e.erase = ((chain e).1.map Expr.erase, (chain e).2.erase)
  | .subscript b _ _ => by simp [chain, chain_erase b]
  | .int .. | .float .. | .char .. | .str .. | .ident .. | .field .. | .call .. | .unary ..
  | .binary .. | .assign .. | .conditional .. | .cast .. | .sizeOfType _ | .sizeOf ..
  | .comma .. => rfl

theorem element_erase (e : Expr) (w : Bool) :
    element c.erase e.erase w = (element c e w).erase := by
  have hfind (is : List Expr) : (is.map Expr.erase).find? (Linear.ofExpr? · |>.isNone) =
      (is.find? (Linear.ofExpr? · |>.isNone)).map Expr.erase :=
    find?_map_of_keeps (fun e => by rw [Linear.ofExpr?_erase]) is
  have hmap (is : List Expr) : (is.map Expr.erase).map Linear.ofExpr? = is.map Linear.ofExpr? := by
    simp
  simp only [element, chain_erase, Expr.ident?_erase, hfind, hmap, Context.erase_strict,
    Context.erase_symbols, SymbolTable.name_erase, Expr.span_erase]
  cases (chain e).2.ident? with
  | none => rfl
  | some x =>
    have hone := one_erase c ⟨x, w, some ((chain e).1.map Linear.ofExpr?), false, e.span⟩
    cases (chain e).1.find? (Linear.ofExpr? · |>.isNone) with
    | none => exact hone
    | some i =>
      cases c.strict with
      | true => simp [refuse_erase _ i.span]
      | false => exact hone

theorem callEffects_erase (s : Span) (xs : List Symbol) :
    callEffects c.erase .none xs = (callEffects c s xs).erase := by
  induction xs with
  | nil => rfl
  | cons x xs ih =>
    simp only [callEffects, ih, scalar_erase c x _ s, Result.erase_append₃]

mutual

theorem ofExpr_erase : ∀ e : Expr, ofExpr c.erase e.erase = (ofExpr c e).erase
  | .int .. | .float .. | .char .. | .str .. | .sizeOfType _ | .sizeOf .. => rfl
  | .ident x s => by
    simp only [Expr.erase, ofExpr, Context.erase_symbols, SymbolTable.kind?_erase,
      scalar_erase c x false s]
    split <;> rfl
  | .field o m _ s => by
    simp only [Expr.erase, ofExpr, ofOwner_erase o, scalar_erase c m false s, Result.erase_append]
  | .subscript b i s => by
    have h := element_erase c (.subscript b i s) false
    rw [Expr.erase] at h
    simp only [Expr.erase, ofExpr, h, ofIndices_erase b, ofExpr_erase i, Result.erase_append₃]
  | .call f args s => by
    simp only [Expr.erase, ofExpr, Expr.ident?_erase, Expr.span_erase]
    cases f.ident? with
    | none => rfl
    | some x =>
      simp only [Context.erase_symbols, Context.erase_calls, SymbolTable.name_erase,
        ofExprs_erase args, callEffects_erase c s, Result.erase_append]
  | .unary op e s => by
    cases op with
    | plus | neg | not | complement => exact ofExpr_erase e
    | preIncr | preDecr | postIncr | postDecr =>
      simp only [Expr.erase, ofExpr, ofExpr_erase e, ofTarget_erase e, Result.erase_append]
    | addressOf => exact ofAddress_erase e
    | deref => rfl
  | .binary _ l r _ => by
    simp only [Expr.erase, ofExpr, ofExpr_erase l, ofExpr_erase r, Result.erase_append]
  | .assign op l r _ => by
    simp only [Expr.erase, ofExpr, ofTarget_erase l, ofExpr_erase l, ofExpr_erase r]
    cases op with
    | plain => exact (Result.erase_append₃ (ofTarget c l) (.ok []) (ofExpr c r)).symm
    | compound op => exact (Result.erase_append₃ (ofTarget c l) (ofExpr c l) (ofExpr c r)).symm
  | .conditional t y n _ => by
    simp only [Expr.erase, ofExpr, ofExpr_erase t, ofExpr_erase y, ofExpr_erase n,
      Result.erase_append₃]
  | .cast _ e _ => ofExpr_erase e
  | .comma es _ => ofExprs_erase es

theorem ofExprs_erase : ∀ es : List Expr,
    ofExprs c.erase (Expr.eraseAll es) = (ofExprs c es).erase
  | [] => rfl
  | e :: es => by
    simp only [Expr.eraseAll, ofExprs, ofExpr_erase e, ofExprs_erase es, Result.erase_append]

theorem ofIndices_erase : ∀ e : Expr, ofIndices c.erase e.erase = (ofIndices c e).erase
  | .subscript b i _ => by
    simp only [Expr.erase, ofIndices, ofIndices_erase b, ofExpr_erase i, Result.erase_append]
  | .int .. | .float .. | .char .. | .str .. | .ident .. | .field .. | .call .. | .unary ..
  | .binary .. | .assign .. | .conditional .. | .cast .. | .sizeOfType _ | .sizeOf ..
  | .comma .. => rfl

theorem ofTarget_erase : ∀ e : Expr, ofTarget c.erase e.erase = (ofTarget c e).erase
  | .ident x s => scalar_erase c x true s
  | .field o m _ s => by
    simp only [Expr.erase, ofTarget, ofOwner_erase o, scalar_erase c m true s, Result.erase_append]
  | .subscript b i s => by
    have h := element_erase c (.subscript b i s) true
    rw [Expr.erase] at h
    simp only [Expr.erase, ofTarget, h, ofIndices_erase b, ofExpr_erase i, Result.erase_append₃]
  | .unary op e s => by cases op <;> rfl
  | .int .. | .float .. | .char .. | .str .. | .call .. | .binary .. | .assign ..
  | .conditional .. | .cast .. | .sizeOfType _ | .sizeOf .. | .comma .. => rfl

theorem ofOwner_erase : ∀ e : Expr, ofOwner c.erase e.erase = (ofOwner c e).erase
  | .ident x s => scalar_erase c x false s
  | .subscript b i s => by
    have h := element_erase c (.subscript b i s) false
    rw [Expr.erase] at h
    simp only [Expr.erase, ofOwner, h, ofIndices_erase b, ofExpr_erase i, Result.erase_append₃]
  | .int .. | .float .. | .char .. | .str .. | .field .. | .call .. | .unary .. | .binary ..
  | .assign .. | .conditional .. | .cast .. | .sizeOfType _ | .sizeOf .. | .comma .. => rfl

theorem ofAddress_erase : ∀ e : Expr, ofAddress c.erase e.erase = (ofAddress c e).erase
  | .ident .. => rfl
  | .subscript b i _ => by
    simp only [Expr.erase, ofAddress, ofExpr_erase i, ofAddress_erase b, Result.erase_append]
  | .field o _ _ _ => ofAddress_erase o
  | .int .. | .float .. | .char .. | .str .. | .call .. | .unary .. | .binary .. | .assign ..
  | .conditional .. | .cast .. | .sizeOfType _ | .sizeOf .. | .comma .. => rfl

end

theorem ofDeclarator_erase (d : Declarator) :
    ofDeclarator c.erase d.erase = (ofDeclarator c d).erase := by
  obtain ⟨x, dims, p, init, st, s⟩ := d
  have hdims : (dims.map (·.map Expr.erase)).filterMap id = Expr.eraseAll (dims.filterMap id) := by
    simp [Expr.eraseAll_eq_map, List.filterMap_map, List.map_filterMap]
  have hinit : ((init.map Initializer.erase).map Initializer.exprs).getD [] =
      Expr.eraseAll ((init.map Initializer.exprs).getD []) := by
    cases init <;> simp [Expr.eraseAll_eq_map]
  cases p with
  | true =>
    simp only [ofDeclarator, Declarator.erase, Context.erase_symbols, SymbolTable.name_erase]
    rfl
  | false =>
    have hone := one_erase c ⟨x, true, none, st == .automatic, s⟩
    rw [erase] at hone
    simp only [ofDeclarator, Declarator.erase, hdims, hinit, ofExprs_erase, hone]
    exact (Result.erase_append₃ _ _ _).symm

theorem ofDeclarators_erase (ds : List Declarator) :
    ofDeclarators c.erase (ds.map Declarator.erase) = (ofDeclarators c ds).erase := by
  induction ds with
  | nil => rfl
  | cons d ds ih =>
    simp only [List.map_cons, ofDeclarators, ofDeclarator_erase, ih, Result.erase_append]

theorem ofStatementExpr_erase (e : Expr) (s : Span) :
    ofStatementExpr c.erase e.erase .none = (ofStatementExpr c e s).erase := by
  have h := ofExpr_erase c e
  cases e with
  | assign op l r t => exact h
  | call f args t => exact h
  | unary op e t =>
    simp only [Expr.erase, ofStatementExpr] at h ⊢
    split
    · exact h
    · rfl
  | _ => rfl

end Touch

@[simps] def TouchGroup.erase (g : TouchGroup) : TouchGroup :=
  { g with touches := g.touches.map Touch.erase }

@[simps toTouch loops statement topLevel order] def Access.erase (a : Access) : Access :=
  { a with toTouch := a.toTouch.erase }

namespace Trail

@[simps] def erase (t : Trail) : Trail :=
  ⟨t.groups.map TouchGroup.erase, t.loops.mapValues CountedLoop.erase, t.topLevel⟩

theorem add_erase (t : Trail) (nest : List CountedLoop) (touches : List Touch) :
    t.erase.add (nest.map CountedLoop.erase) (touches.map Touch.erase) =
      (t.add nest touches).erase := by
  simp [add, erase, TouchGroup.erase, Function.comp_def]

variable (c : Touch.Context)

theorem contextIn_erase (nest : List CountedLoop) :
    contextIn c.erase (nest.map CountedLoop.erase) = (contextIn c nest).erase := by
  simp [contextIn, Touch.Context.erase, Function.comp_def]

theorem add_result_erase (nest : List CountedLoop) (t : Trail) (r : Touch.Result) :
    (do return t.erase.add (nest.map CountedLoop.erase) (← r.erase)) =
      mapResult Unsupported.erase erase (do return t.add nest (← r)) :=
  mapResult_bind rfl fun touches => congrArg Except.ok (add_erase t nest touches)

mutual

theorem walk_erase (nest : List CountedLoop) : ∀ (s : Stmt) (t : Trail),
    walk c.erase (nest.map CountedLoop.erase) s.erase t.erase =
      mapResult Unsupported.erase erase (walk c nest s t)
  | .null _, _ => rfl
  | .decl ds _, t => by
    simp only [Stmt.erase, walk, contextIn_erase, Touch.ofDeclarators_erase]
    exact add_result_erase nest t _
  | .expr e s, t => by
    simp only [Stmt.erase, walk, contextIn_erase, Site.erase_span,
      Touch.ofStatementExpr_erase _ e s.span]
    exact add_result_erase nest t _
  | .compound ss _, t => walkAll_erase nest ss t
  | .branch cond yes none _, t => by
    simp only [Stmt.erase, walk, contextIn_erase, Touch.ofExpr_erase]
    refine mapResult_bind rfl fun touches => ?_
    rw [add_erase]
    exact walk_erase nest yes _
  | .branch cond yes (some no) _, t => by
    simp only [Stmt.erase, walk, contextIn_erase, Touch.ofExpr_erase]
    refine mapResult_bind rfl fun touches => ?_
    rw [add_erase]
    exact mapResult_bind (walk_erase nest yes _) fun t => walk_erase nest no t
  | .forLoop h b s, t => by
    simp only [Stmt.erase, walk, CountedLoop.ofHeader?_erase]
    cases CountedLoop.ofHeader? h with
    | none => rfl
    | some l =>
      have hloops (k : Nat) : (⟨t.erase.groups, t.erase.loops.insert h.id l.erase, k⟩ : Trail) =
          erase ⟨t.groups, t.loops.insert h.id l, k⟩ := by
        simp [erase]
      simp only [Option.map_some, List.isEmpty_map, ForHeader.erase_id, erase_topLevel, hloops]
      cases hn : nest.isEmpty with
      | true =>
        -- The statements of a block that is the body of an outermost loop are numbered.
        have hb := walk_erase [l] b
          { t with loops := t.loops.insert h.id l, topLevel := 0 }
        cases b with
        | compound ss s' => exact walkNumbered_erase [l] 0 ss _
        | branch cond yes no s' => cases no <;> exact hb
        | _ => exact hb
      | false =>
        have hb := walk_erase (nest ++ [l]) b { t with loops := t.loops.insert h.id l }
        simpa using hb
  | .ret .., _ | .whileLoop .., _ | .doWhile .., _ | .switch .., _ | .caseLabel .., _
  | .defaultLabel _, _ | .break _, _ | .continue _, _ | .goto .., _ | .label .., _ => rfl

theorem walkAll_erase (nest : List CountedLoop) : ∀ (ss : List Stmt) (t : Trail),
    walkAll c.erase (nest.map CountedLoop.erase) (Stmt.eraseAll ss) t.erase =
      mapResult Unsupported.erase erase (walkAll c nest ss t)
  | [], _ => rfl
  | s :: ss, t => mapResult_bind (walk_erase nest s t) fun t => walkAll_erase nest ss t

theorem walkNumbered_erase (nest : List CountedLoop) (k : Nat) : ∀ (ss : List Stmt) (t : Trail),
    walkNumbered c.erase (nest.map CountedLoop.erase) k (Stmt.eraseAll ss) t.erase =
      mapResult Unsupported.erase erase (walkNumbered c nest k ss t)
  | [], _ => rfl
  | s :: ss, t => mapResult_bind (walk_erase nest s { t with topLevel := k })
      fun t => walkNumbered_erase nest (k + 1) ss t

end

theorem placed_erase (t : Trail) :
    t.erase.placed = t.placed.map fun a order => (a order).erase := by
  simp [placed, List.zipIdx_map, List.flatMap_map, List.map_flatMap, Function.comp_def,
    Access.erase]

@[simp] theorem accesses_erase (t : Trail) : t.erase.accesses = t.accesses.map Access.erase := by
  simp [accesses, placed_erase, List.zipIdx_map, Function.comp_def]

end Trail

@[simps] def AccessSet.erase (s : AccessSet) : AccessSet :=
  ⟨s.accesses.map Access.erase, s.loops.mapValues CountedLoop.erase⟩

/-- The line of a selection that is no loop is a place. -/
def InvalidRequest.erase : InvalidRequest → InvalidRequest
  | notForLoop description _ => notForLoop description 0
  | r => r

def AnalysisError.erase : AnalysisError → AnalysisError
  | unsupported u => unsupported u.erase
  | invalid r => invalid r.erase
  | cancelled => cancelled
  | overflow => overflow

namespace Collector

@[simps] def erase (c : Collector) : Collector := { c with symbols := c.symbols.erase }

theorem collect_erase (c : Collector) (stmts : List Stmt) :
    c.erase.collect (Stmt.eraseAll stmts) =
      mapResult AnalysisError.erase AccessSet.erase (c.collect stmts) := by
  have hwalk := Trail.walkNumbered_erase c.context [] 0 stmts .empty
  simp only [collect, erase_cancelled, erase_config]
  split
  · rfl
  · have hmap : (Trail.walkNumbered c.erase.context [] 0 (Stmt.eraseAll stmts) .empty).mapError
        AnalysisError.unsupported = mapResult AnalysisError.erase Trail.erase
          ((Trail.walkNumbered c.context [] 0 stmts .empty).mapError .unsupported) := by
      refine (congrArg _ hwalk).trans ?_
      cases Trail.walkNumbered c.context [] 0 stmts .empty <;> rfl
    refine mapResult_bind hmap fun trail => ?_
    simp only [Trail.accesses_erase, List.length_map]
    split
    · split <;> rfl
    · rfl

end Collector

namespace Draft

theorem addBounds_erase (l : CountedLoop) : addBounds l.erase = addBounds l := by
  funext indices env
  simp [addBounds, addLower]

theorem indicesOf_erase (loops : IndexMap CountedLoop) (common side k : Nat) (ids : List LoopId)
    (m : IndexMap Nat) : indicesOf (loops.mapValues CountedLoop.erase) common side k ids m =
      indicesOf loops common side k ids m := by
  induction ids generalizing k m with
  | nil => rfl
  | cons id ids ih =>
    simp only [indicesOf, IndexMap.get?_mapValues, ih]
    cases loops.get? id <;> rfl

theorem addAllBounds_erase (loops : IndexMap CountedLoop) (indices : IndexMap Nat) (env : ConstEnv)
    (ids : List LoopId) : addAllBounds (loops.mapValues CountedLoop.erase) indices env ids =
      addAllBounds loops indices env ids := by
  induction ids with
  | nil => rfl
  | cons id ids ih =>
    simp only [addAllBounds, IndexMap.get?_mapValues, ih]
    cases loops.get? id with
    | none => rfl
    | some l =>
      show (addBounds l.erase indices env >>= fun _ => _) = _
      rw [addBounds_erase]
      rfl

end Draft

@[simp] theorem Access.linearSubscripts?_erase (a : Access) :
    a.erase.linearSubscripts? = a.linearSubscripts? := rfl

theorem DependenceProblem.ofPair?_erase (loops : IndexMap CountedLoop) (env : ConstEnv)
    (a b : Access) : ofPair? (loops.mapValues CountedLoop.erase) env a.erase b.erase =
      ofPair? loops env a b := by
  simp [ofPair?, Access.commonLoops, Draft.indicesOf_erase, Draft.addAllBounds_erase]

@[simps] def Dependence.erase (d : Dependence) : Dependence :=
  ⟨d.source.erase, d.sink.erase, d.direction⟩

namespace PairContext

@[simps] def erase (c : PairContext) : PairContext where
  symbols := c.symbols.erase
  loops := c.loops.mapValues CountedLoop.erase
  env := c.env
  accesses := c.accesses.map Access.erase

variable (c : PairContext) (a b : Access)

theorem declaration?_erase (x : Symbol) :
    c.erase.declaration? x = (c.declaration? x).map Access.erase :=
  find?_map_of_keeps (f := Access.erase) (fun _ => rfl) c.accesses

theorem privateLoops_erase : c.erase.privateLoops a.erase b.erase = c.privateLoops a b := by
  simp only [privateLoops, Access.erase_toTouch, Touch.erase_symbol, declaration?_erase]
  cases c.declaration? a.symbol <;> rfl

theorem problem?_erase : c.erase.problem? a.erase b.erase = c.problem? a b := by
  have haffine : c.erase.isAffinePair a.erase b.erase = c.isAffinePair a b := by
    simp [isAffinePair]
  rw [problem?, problem?, haffine, erase_loops, erase_env, DependenceProblem.ofPair?_erase]

theorem directions_erase : c.erase.directions a.erase b.erase = c.directions a b := by
  have hcandidates : c.erase.candidates a.erase b.erase = c.candidates a b := by
    simp [candidates, privateLoops_erase, problem?_erase, Access.commonLoops]
  rw [directions, directions, hcandidates]
  rfl

theorem groups_erase (as : List Access) :
    groups (as.map Access.erase) = (groups as).map (List.map Access.erase) := by
  simp [groups, List.filter_map, Function.comp_def]

theorem pairs_erase (as : List Access) :
    pairs (as.map Access.erase) = (pairs as).map fun p => (p.1.erase, p.2.erase) := by
  simp [pairs, List.flatMap_map, List.map_flatMap, List.filter_map, Function.comp_def]

theorem dependences_erase :
    c.erase.dependences = c.dependences.map (List.map Dependence.erase) := by
  have hpairs : (groups c.erase.accesses).flatMap pairs =
      ((groups c.accesses).flatMap pairs).map fun p => (p.1.erase, p.2.erase) := by
    simp [groups_erase, pairs_erase, List.flatMap_map, List.map_flatMap]
  have hpair (p : Access × Access) : c.erase.dependencesOf (p.1.erase, p.2.erase) =
      (c.dependencesOf p).map (List.map Dependence.erase) := by
    rw [dependencesOf, dependencesOf, directions_erase]
    cases c.directions p.1 p.2 with
    | error o => rfl
    | ok vs => exact congrArg Except.ok (by simp [Dependence.erase])
  rw [dependences, dependences, hpairs, mapM_map_eq hpair]
  cases ((groups c.accesses).flatMap pairs).mapM c.dependencesOf with
  | error o => rfl
  | ok found => exact congrArg Except.ok List.map_flatten.symm

end PairContext

@[simps] def DependenceAnalysis.erase (a : DependenceAnalysis) : DependenceAnalysis where
  accesses := a.accesses.map Access.erase
  dependences := a.dependences.map Dependence.erase
  loops := a.loops.mapValues CountedLoop.erase

namespace Analyzer

@[simps] def erase (a : Analyzer) : Analyzer := { a with symbols := a.symbols.erase }

theorem regionEnv_erase (a : Analyzer) (stmts : List Stmt) (loops : IndexMap CountedLoop) :
    a.erase.regionEnv (Stmt.eraseAll stmts) (loops.mapValues CountedLoop.erase) =
      a.regionEnv stmts loops := by
  simp [regionEnv, Stmt.eraseAll_eq_map, List.flatMap_map]

theorem analyze_erase (a : Analyzer) (stmts : List Stmt) :
    a.erase.analyze (Stmt.eraseAll stmts) =
      mapResult AnalysisError.erase DependenceAnalysis.erase (a.analyze stmts) := by
  refine mapResult_bind (Collector.collect_erase a.collector stmts) fun set => ?_
  have hcontext := PairContext.dependences_erase
    ⟨a.symbols, set.loops, a.regionEnv stmts set.loops, set.accesses⟩
  simp only [AccessSet.erase, regionEnv_erase]
  refine mapResult_bind (g := List.map Dependence.erase) ?_ fun ds => rfl
  refine (congrArg (Except.mapError fun _ => AnalysisError.overflow) hcontext).trans ?_
  cases PairContext.dependences _ <;> rfl

end Analyzer

end LoopLegality

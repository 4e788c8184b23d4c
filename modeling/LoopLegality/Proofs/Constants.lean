import LoopLegality.Nest
import LoopLegality.Proofs.Frame
import LoopLegality.Proofs.Problem
import LoopLegality.Propagation

namespace LoopLegality

open Node (writesOf)

theorem Evaluation.both.eq_of_pure {p q : Evaluation} {σ σ' : Values} {a b x y : Int}
    (h : both p q σ x y σ') (hp : ∀ {n σ'}, p σ n σ' → n = a ∧ σ' = σ)
    (hq : ∀ {n σ'}, q σ n σ' → n = b ∧ σ' = σ) : x = a ∧ y = b ∧ σ' = σ := by
  obtain ⟨τ, h₁, h₂⟩ | ⟨τ, h₁, h₂⟩ := h
  · obtain ⟨rfl, rfl⟩ := hp h₁
    obtain ⟨rfl, rfl⟩ := hq h₂
    exact ⟨rfl, rfl, rfl⟩
  · obtain ⟨rfl, rfl⟩ := hq h₁
    obtain ⟨rfl, rfl⟩ := hp h₂
    exact ⟨rfl, rfl, rfl⟩

theorem UnaryOp.change?_of_result? {op : UnaryOp} {a m : Int} (h : op.result? a = some m) :
    op.change? = none := by
  cases op <;> simp_all [UnaryOp.result?, change?]

theorem BinaryOp.settled?_of_not_isLogical {op : BinaryOp} (h : op.isLogical = false) (a : Int) :
    op.settled? a = none := by
  cases op <;> simp_all [isLogical, settled?]

namespace Expr

variable {env : ConstEnv} {σ σ' : Values}

theorem Yields.eq_of_not_hasEffect {e : Expr} {n : Int} (h : e.Yields σ n σ')
    (he : e.hasEffect = false) : σ' = σ :=
  (assigned_of_not_hasEffect he ▸ Yields.agreeOff e h).eq_of_nil

theorem Yields.binary_of_pure {op : BinaryOp} {l r : Expr} {s : Span} {a b n : Int}
    (hop : op.isLogical = false) (hl : ∀ {n σ'}, l.Yields σ n σ' → n = a ∧ σ' = σ)
    (hr : ∀ {n σ'}, r.Yields σ n σ' → n = b ∧ σ' = σ)
    (h : (Expr.binary op l r s).Yields σ n σ') : op.result? a b = some n ∧ σ' = σ := by
  simp only [Yields, hop, Bool.false_eq_true, if_false,
    BinaryOp.settled?_of_not_isLogical hop] at h
  obtain ⟨-, -, hn⟩ | ⟨x, y, -, hm, h⟩ := h
  · cases hn
  · obtain ⟨rfl, rfl, rfl⟩ := h.eq_of_pure hl hr
    exact ⟨hm, rfl⟩

/-- Where the constants settle an expression, no evaluation gives another number, and none
changes anything. -/
theorem Yields.eq_eval : ∀ (e : Expr) {σ σ' : Values} {n m : Int}, env.Agrees σ →
    e.Yields σ n σ' → e.eval? env = some m → n = m ∧ σ' = σ
  | .int k _, σ, σ', n, m, hσ, h, he => by
    cases he
    exact h
  | .char text _, σ, σ', n, m, hσ, h, he => ⟨Option.some.inj (h.1.symm.trans he), h.2⟩
  | .ident x _, σ, σ', n, m, hσ, h, he => ⟨h.1.trans (hσ x m he), h.2⟩
  | .unary op e _, σ, σ', n, m, hσ, h, he => by
    obtain ⟨a, ha, hop⟩ := Option.bind_eq_some_iff.mp he
    simp only [Yields, UnaryOp.change?_of_result? hop] at h
    obtain ⟨a', h, hop'⟩ := h
    obtain ⟨rfl, rfl⟩ := Yields.eq_eval e hσ h ha
    exact ⟨Option.some.inj (hop'.symm.trans hop), rfl⟩
  | .binary op l r _, σ, σ', n, m, hσ, h, he => by
    obtain ⟨a, ha, he⟩ := Option.bind_eq_some_iff.mp he
    by_cases hlog : op.isLogical = true
    · simp only [Yields, hlog, if_true] at h
      obtain ⟨a', h, hs⟩ | ⟨a', b', hs, hop, τ, h₁, h₂⟩ := h
      · obtain ⟨rfl, rfl⟩ := Yields.eq_eval l hσ h ha
        rw [hs] at he
        exact ⟨Option.some.inj he, rfl⟩
      · obtain ⟨rfl, rfl⟩ := Yields.eq_eval l hσ h₁ ha
        rw [hs] at he
        obtain ⟨b, hb, hm⟩ := Option.bind_eq_some_iff.mp he
        obtain ⟨rfl, rfl⟩ := Yields.eq_eval r hσ h₂ hb
        exact ⟨Option.some.inj (hop.symm.trans hm), rfl⟩
    · have hlog' : op.isLogical = false := by simpa using hlog
      rw [BinaryOp.settled?_of_not_isLogical hlog'] at he
      obtain ⟨b, hb, hm⟩ := Option.bind_eq_some_iff.mp he
      obtain ⟨hop, rfl⟩ := h.binary_of_pure hlog' (fun h => Yields.eq_eval l hσ h ha)
        (fun h => Yields.eq_eval r hσ h hb)
      exact ⟨Option.some.inj (hop.symm.trans hm), rfl⟩
  | .conditional c t f _, σ, σ', n, m, hσ, h, he => by
    obtain ⟨a, ha, he⟩ := Option.bind_eq_some_iff.mp he
    simp only [Yields] at h
    obtain ⟨a', τ, hc, h⟩ := h
    obtain ⟨rfl, rfl⟩ := Yields.eq_eval c hσ hc ha
    split at h
    · next hz => exact Yields.eq_eval f hσ h (by simpa [hz] using he)
    · next hz => exact Yields.eq_eval t hσ h (by simpa [hz] using he)
  | .cast _ e _, σ, σ', n, m, hσ, h, he => Yields.eq_eval e hσ h he
  | .float .., _, _, _, _, _, _, he | .str .., _, _, _, _, _, _, he
  | .field .., _, _, _, _, _, _, he | .subscript .., _, _, _, _, _, _, he
  | .call .., _, _, _, _, _, _, he | .assign .., _, _, _, _, _, _, he
  | .sizeOfType _, _, _, _, _, _, _, he | .sizeOf .., _, _, _, _, _, _, he
  | .comma .., _, _, _, _, _, _, he => by cases he

theorem both_of_not_hasEffect {l r : Expr} {x y : Int}
    (h : Evaluation.both l.Yields r.Yields σ x y σ') (hl : l.hasEffect = false)
    (hr : r.hasEffect = false) : σ' = σ ∧ l.Yields σ x σ ∧ r.Yields σ y σ := by
  obtain ⟨τ, h₁, h₂⟩ | ⟨τ, h₁, h₂⟩ := h
  · obtain rfl := h₁.eq_of_not_hasEffect hl
    obtain rfl := h₂.eq_of_not_hasEffect hr
    exact ⟨rfl, h₁, h₂⟩
  · obtain rfl := h₁.eq_of_not_hasEffect hr
    obtain rfl := h₂.eq_of_not_hasEffect hl
    exact ⟨rfl, h₂, h₁⟩

theorem Run.eq_of_not_hasEffect {es : List Expr} (h : Run es σ σ')
    (he : ∀ e ∈ es, e.hasEffect = false) : σ' = σ := by
  induction es generalizing σ with
  | nil => exact h
  | cons e es ih =>
    obtain ⟨a, τ, h₁, h⟩ := h
    have hτ : τ = σ := h₁.eq_of_not_hasEffect (he e List.mem_cons_self)
    exact (ih h fun i hi => he i (List.mem_cons_of_mem _ hi)).trans hτ

end Expr

namespace ConstEnv

variable {env env' : ConstEnv} {σ σ' : Values}

theorem agrees_empty (σ : Values) : Agrees .empty σ := fun _ _ h => by cases h

theorem Agrees.erase (h : env.Agrees σ) (x : Symbol) (n : Int) :
    Agrees (env.erase x) (Function.update σ x n) := by
  intro y m hy
  rw [IndexMap.get?_erase] at hy
  by_cases hx : y = x
  · simp [hx] at hy
  · rw [Function.update_of_ne hx]
    exact h y m (by simpa [hx] using hy)

theorem Agrees.assign (h : env.Agrees σ) (x : Symbol) {value : Option Int} {n : Int}
    (hv : ∀ m, value = some m → n = m) : (env.assign x value).Agrees (Function.update σ x n) := by
  cases value with
  | none => exact h.erase x n
  | some m =>
    obtain rfl := hv m rfl
    intro y k hy
    rw [ConstEnv.assign, IndexMap.get?_insert] at hy
    by_cases hx : x = y
    · subst hx
      rw [Function.update_self]
      simpa using hy
    · rw [Function.update_of_ne (Ne.symm hx)]
      exact h y k (by simpa [hx] using hy)

theorem Agrees.meet_left (h : env.Agrees σ) : Agrees (env.meet env') σ :=
  fun y m hy => h y m ((IndexMap.get?_meet env env' y m).mp hy).1

theorem Agrees.meet_right (h : env'.Agrees σ) : Agrees (env.meet env') σ :=
  fun y m hy => h y m ((IndexMap.get?_meet env env' y m).mp hy).2

theorem Agrees.eraseAll {xs : List Symbol} (h : env.Agrees σ) (hoff : AgreeOff xs σ σ') :
    Agrees (env.eraseAll xs) σ' := by
  intro y m hy
  rw [IndexMap.get?_eraseAll] at hy
  by_cases hx : y ∈ xs
  · simp [hx] at hy
  · rw [hoff y hx]
    exact h y m (by simpa [hx] using hy)

end ConstEnv

/-- An array has no initializer, and its dimensions write nothing. -/
def Declarator.isPlain (d : Declarator) : Bool :=
  d.dims.isEmpty || d.init.isNone && (d.dims.filterMap id).all (!·.hasEffect)

namespace ConstEnv

variable {env : ConstEnv} {σ σ' : Values}

theorem Agrees.afterDeclarator {d : Declarator} (hσ : env.Agrees σ) (hd : d.isPlain = true)
    (h : d.Runs σ σ') : (env.afterDeclarator d).Agrees σ' := by
  obtain ⟨hp, hauto, τ, hdims, h⟩ := h
  rw [ConstEnv.afterDeclarator]
  by_cases hempty : d.dims = []
  · obtain rfl : τ = σ := by simpa [hempty, Expr.Run] using hdims
    simp only [hempty, hp, hauto hempty, List.isEmpty_nil, Bool.not_true, Bool.or_false,
      bne_self_eq_false, Bool.false_eq_true, if_false]
    cases hi : d.init with
    | none =>
      rw [hi] at h
      obtain ⟨n, rfl⟩ := h
      exact hσ.erase d.symbol n
    | some i =>
      rw [hi] at h
      cases i with
      | list is => exact agrees_empty σ'
      | expr e =>
        obtain ⟨n, τ', he, rfl⟩ := h
        dsimp only
        split
        · exact agrees_empty _
        · next hne =>
          obtain rfl := he.eq_of_not_hasEffect (by simpa using hne)
          exact hσ.assign d.symbol fun m hm => (Expr.Yields.eq_eval e hσ he hm).1
  · -- only the array itself is forgotten
    simp only [Declarator.isPlain, List.isEmpty_iff, hempty, Bool.or_eq_true, Bool.and_eq_true,
      false_or, Option.isNone_iff_eq_none, List.all_eq_true, Bool.not_eq_true'] at hd
    obtain ⟨hi, heff⟩ := hd
    obtain rfl := hdims.eq_of_not_hasEffect heff
    rw [hi] at h
    obtain ⟨n, rfl⟩ := h
    simpa [hempty] using hσ.erase d.symbol n

theorem Agrees.afterDeclarators {ds : List Declarator} (hσ : env.Agrees σ)
    (hd : ∀ d ∈ ds, d.isPlain = true) (h : Declarator.RunAll ds σ σ') :
    (ds.foldl ConstEnv.afterDeclarator env).Agrees σ' := by
  induction ds generalizing env σ with
  | nil => exact h ▸ hσ
  | cons d ds ih =>
    obtain ⟨τ, hrun, h⟩ := h
    exact ih (hσ.afterDeclarator (hd d List.mem_cons_self) hrun)
      (fun i hi => hd i (List.mem_cons_of_mem _ hi)) h

theorem Agrees.afterWrite {place : Expr} {value : Symbol → Option Int} {n : Int}
    (hσ : env.Agrees σ) (h : place.Stores σ n σ')
    (hv : ∀ x s, place = .ident x s → ∀ m, value x = some m → n = m) :
    (env.afterWrite place value).Agrees σ' := by
  cases place with
  | ident x s =>
    cases h
    exact hσ.assign x (hv x s rfl)
  | subscript b i s | field o m a s =>
    cases h
    rw [ConstEnv.afterWrite]
    split
    · exact agrees_empty _
    · exact hσ
  | _ => exact agrees_empty _

theorem afterWrite_of_hasEffect {place : Expr} (h : place.hasEffect = true)
    (value : Symbol → Option Int) : env.afterWrite place value = .empty := by
  cases place with
  | ident x s => cases h
  | subscript b i s | field o m a s => rw [ConstEnv.afterWrite, if_pos h]
  | _ => rfl

theorem afterExpr_unary (op : UnaryOp) (e : Expr) (s : Span) :
    env.afterExpr (.unary op e s) = match op.change? with
      | some d => env.afterWrite e fun x => do Word.add? (← env.get? x) d
      | none => .empty := by
  cases op <;> rfl

theorem Agrees.afterExpr {e : Expr} {n : Int} (hσ : env.Agrees σ) (h : e.Yields σ n σ') :
    (env.afterExpr e).Agrees σ' := by
  cases e with
  | assign op l r s =>
    simp only [Expr.Yields] at h
    obtain ⟨old, new, τ, h, hop, hst⟩ := h
    rw [ConstEnv.afterExpr]
    split
    · exact agrees_empty _
    · next hr =>
      by_cases hl : l.hasEffect = true
      · rw [afterWrite_of_hasEffect hl]
        exact agrees_empty _
      · obtain ⟨rfl, hleft, hright⟩ :=
          Expr.both_of_not_hasEffect h (by simpa using hl) (by simpa using hr)
        refine hσ.afterWrite hst fun x s hx m hm => ?_
        subst hx
        cases op with
        | plain =>
          cases hop
          exact (Expr.Yields.eq_eval r hσ hright hm).1
        | compound op =>
          simp only [Option.bind_eq_bind, Option.bind_eq_some_iff] at hm
          obtain ⟨k, hk, v, hv, hm⟩ := hm
          obtain rfl : old = k := hleft.1.trans (hσ x k hk)
          obtain rfl := (Expr.Yields.eq_eval r hσ hright hv).1
          exact Option.some.inj (hop.symm.trans hm)
  | unary op e s =>
    rw [afterExpr_unary]
    simp only [Expr.Yields] at h
    cases hd : op.change? with
    | none => exact agrees_empty _
    | some d =>
      rw [hd] at h
      obtain ⟨old, new, τ, he, hadd, hst, -⟩ := h
      by_cases heff : e.hasEffect = true
      · dsimp only
        rw [afterWrite_of_hasEffect heff]
        exact agrees_empty _
      · obtain rfl := he.eq_of_not_hasEffect (by simpa using heff)
        refine hσ.afterWrite hst fun x s hx m hm => ?_
        subst hx
        obtain ⟨k, hk, hm⟩ := Option.bind_eq_some_iff.mp hm
        obtain rfl : old = k := he.1.trans (hσ x k hk)
        exact Option.some.inj (hadd.symm.trans hm)
  | _ => exact agrees_empty _

theorem Agrees.afterInit {init : Option ForInit} (hσ : env.Agrees σ)
    (hd : ∀ d, Node.declarator d ∈ (init.map ForInit.nodes).getD [] → d.isPlain = true)
    (h : Enters init σ σ') : (env.afterInit init).Agrees σ' := by
  cases init with
  | none => exact h ▸ hσ
  | some i =>
    cases i with
    | decl d =>
      refine hσ.afterDeclarators (fun x hx => hd x ?_) h
      exact List.mem_flatMap.mpr ⟨x, hx, List.mem_cons_self⟩
    | expr e s =>
      obtain ⟨n, h⟩ := h
      exact hσ.afterExpr h
    | null s => exact h ▸ hσ

end ConstEnv

namespace Flow

open ConstEnv (agrees_empty)

/-- The declarations in these parts of a tree that constants are followed through. -/
def Plain (ns : List Node) : Prop := ∀ d, Node.declarator d ∈ ns → d.isPlain = true

theorem Plain.mono {ns ms : List Node} (h : Plain ms) (hsub : ns ⊆ ms) : Plain ns :=
  fun d hd => h d (hsub hd)

/-- What holds in a loop: what held before it, less all that the loop writes. -/
def invariant (env : ConstEnv) (l : ForLoop) : ConstEnv :=
  (env.afterInit l.header.init).eraseAll l.stmt.written

section Loop

variable {env : ConstEnv} {h : ForHeader} {b : Stmt} {s : Site} {σ τ σ' : Values}

theorem invariant_agrees (hp : Plain (Stmt.forLoop h b s).nodes) (hσ : env.Agrees σ)
    (henter : Enters h.init σ τ)
    (hoff : AgreeOff (writesOf (Stmt.forLoop h b s).nodes) τ σ') :
    (invariant env ⟨h, b, s⟩).Agrees σ' := by
  have hinit : Plain ((h.init.map ForInit.nodes).getD []) :=
    hp.mono fun n hn => by simp [Stmt.nodes, ForHeader.nodes, hn]
  exact (hσ.afterInit hinit henter).eraseAll
    (hoff.mono fun x hx => Stmt.mem_written.mpr hx)

theorem clauses_subset :
    writesOf (optionNodes h.cond) ⊆ writesOf (Stmt.forLoop h b s).nodes ∧
      writesOf (optionNodes h.incr) ⊆ writesOf (Stmt.forLoop h b s).nodes :=
  ⟨Node.writesOf_subset fun n hn => by simp [Stmt.nodes, ForHeader.nodes, hn],
    Node.writesOf_subset fun n hn => by simp [Stmt.nodes, ForHeader.nodes, hn]⟩

theorem body_agreeOff {g : Signal} (hb : b.Runs σ g σ') :
    AgreeOff (writesOf (Stmt.forLoop h b s).nodes) σ σ' :=
  (Stmt.Runs.agreeOff b hb).mono (Node.writesOf_subset (List.subset_append_right _ _))

end Loop

mutual

theorem exit_agrees : ∀ (s : Stmt) {env : ConstEnv} {σ σ' : Values}, Plain s.nodes →
    env.Agrees σ → s.Runs σ .done σ' → (ofStmt s env).exit.Agrees σ'
  | .null _, _, _, _, _, hσ, h => by
    rw [h.2]
    exact hσ
  | .decl ds _, _, _, _, hp, hσ, h =>
    hσ.afterDeclarators (fun d hd => hp d (List.mem_flatMap.mpr ⟨d, hd, List.mem_cons_self⟩)) h.2
  | .expr e _, _, _, _, _, hσ, ⟨_, _, h⟩ => hσ.afterExpr h
  | .compound ss _, _, _, _, hp, hσ, h => exits_agree ss hp hσ h
  | .branch c t none _, env, σ, σ', hp, hσ, ⟨n, τ, hc, h⟩ => by
    rw [ofStmt]
    split
    · exact agrees_empty σ'
    · next hne =>
      obtain rfl := hc.eq_of_not_hasEffect (by simpa using hne)
      split at h
      · rw [h.2]
        exact hσ.meet_right
      · exact (exit_agrees t (hp.mono (List.subset_append_right _ _)) hσ h).meet_left
  | .branch c t (some e) _, env, σ, σ', hp, hσ, ⟨n, τ, hc, h⟩ => by
    rw [ofStmt]
    split
    · exact agrees_empty σ'
    · next hne =>
      obtain rfl := hc.eq_of_not_hasEffect (by simpa using hne)
      split at h
      · exact (exit_agrees e (hp.mono (List.subset_append_right _ _)) hσ h).meet_right
      · refine (exit_agrees t (hp.mono ?_) hσ h).meet_left
        exact List.subset_append_of_subset_left _ (List.subset_append_right _ _)
  | .forLoop f b s, env, σ, σ', hp, hσ, ⟨τ, henter, h⟩ => by
    -- however often the loop ran, it changed nothing that the invariant still binds
    have hoff := h.agreeOff clauses_subset.1 clauses_subset.2 (body_agreeOff (h := f) (s := s))
    exact invariant_agrees hp hσ henter hoff
  | .whileLoop .., _, _, σ', _, _, _ | .doWhile .., _, _, σ', _, _, _
  | .switch .., _, _, σ', _, _, _ | .label .., _, _, σ', _, _, _ | .ret .., _, _, σ', _, _, _
  | .caseLabel .., _, _, σ', _, _, _ | .defaultLabel _, _, _, σ', _, _, _
  | .break _, _, _, σ', _, _, _ | .continue _, _, _, σ', _, _, _
  | .goto .., _, _, σ', _, _, _ => agrees_empty σ'

theorem exits_agree : ∀ (ss : List Stmt) {env : ConstEnv} {σ σ' : Values}, Plain (Stmt.nodesOf ss) →
    env.Agrees σ → Stmt.RunAll ss σ .done σ' → (ofStmts ss env).exit.Agrees σ'
  | [], _, _, _, _, hσ, h => by
    rw [h.2]
    exact hσ
  | s :: ss, env, σ, σ', hp, hσ, h => by
    obtain ⟨τ, hs, h⟩ | ⟨hne, -⟩ := h
    · have hfirst := exit_agrees s (hp.mono (List.subset_append_left _ _)) hσ hs
      exact exits_agree ss (hp.mono (List.subset_append_right _ _)) hfirst h
    · exact absurd rfl hne

end

/-- The constants recorded for the loop that a body starts in. -/
def RecordedAt (flow : Flow) (vs : List Visit) (ρ : Values) : Prop :=
  ∃ outer v e, vs = outer ++ [v] ∧ (v.loop.header.id, e) ∈ flow.loops ∧ e.Agrees ρ

theorem RecordedAt.mono {flow flow' : Flow} {vs : List Visit} {ρ : Values}
    (h : RecordedAt flow vs ρ) (hsub : flow.loops ⊆ flow'.loops) : RecordedAt flow' vs ρ := by
  obtain ⟨outer, v, e, hvs, he, hρ⟩ := h
  exact ⟨outer, v, e, hvs, hsub he, hρ⟩

mutual

theorem starts_recorded : ∀ (s : Stmt) {env : ConstEnv} {σ ρ : Values} {vs : List Visit},
    Plain s.nodes → env.Agrees σ → s.Starts Stmt.Runs σ vs ρ → RecordedAt (ofStmt s env) vs ρ
  | .compound ss _, _, _, _, _, hp, hσ, h => startsIn_recorded ss hp hσ h
  | .branch c t none _, env, σ, ρ, vs, hp, hσ, ⟨τ, ⟨_, n, hc⟩, h⟩ => by
    have ht : Plain t.nodes := hp.mono (List.subset_append_right _ _)
    rw [ofStmt]
    split
    · exact (starts_recorded t ht (agrees_empty τ) h).mono (List.Subset.refl _)
    · next hne =>
      obtain rfl := hc.eq_of_not_hasEffect (by simpa using hne)
      exact (starts_recorded t ht hσ h).mono (List.Subset.refl _)
  | .branch c t (some e) _, env, σ, ρ, vs, hp, hσ, ⟨τ, ⟨_, n, hc⟩, h⟩ => by
    have ht : Plain t.nodes :=
      hp.mono (List.subset_append_of_subset_left _ (List.subset_append_right _ _))
    have he : Plain e.nodes := hp.mono (List.subset_append_right _ _)
    -- the constants that the arms are entered with hold there, or there are none
    have harms {env' : ConstEnv} (hτ : env'.Agrees τ) :
        RecordedAt ⟨.empty, (ofStmt t env').loops ++ (ofStmt e env').loops⟩ vs ρ := by
      obtain h | h := h
      · exact (starts_recorded t ht hτ h).mono (List.subset_append_left _ _)
      · exact (starts_recorded e he hτ h).mono (List.subset_append_right _ _)
    rw [ofStmt]
    split
    · exact harms (agrees_empty τ)
    · next hne =>
      obtain rfl := hc.eq_of_not_hasEffect (by simpa using hne)
      exact (harms hσ).mono (List.Subset.refl _)
  | .forLoop f b s, env, σ, ρ, vs, hp, hσ, h => by
    obtain ⟨σ₀, runs, σ₁, σ₂, henter, hit, htest, inner, hvs, h⟩ := h
    have hoff := (hit.agreeOff clauses_subset.1 clauses_subset.2
      (body_agreeOff (h := f) (s := s))).trans (htest.agreeOff.mono clauses_subset.1)
    have hinv := invariant_agrees hp hσ henter hoff
    -- the body of this loop starts, or that of a loop inside it
    obtain ⟨rfl, rfl⟩ | h := h
    · exact ⟨[], _, _, hvs, List.mem_cons_self, hinv⟩
    · obtain ⟨outer, v, e, rfl, he, hρ⟩ :=
        starts_recorded b (hp.mono (List.subset_append_right _ _)) hinv h
      exact ⟨_ :: outer, v, e, hvs, List.mem_cons_of_mem _ he, hρ⟩
  | .whileLoop c b _, _, _, _, _, hp, _, ⟨_, σ₂, _, _, h⟩ =>
    (starts_recorded b (hp.mono (List.subset_append_right _ _)) (agrees_empty σ₂) h).mono
      (List.Subset.refl _)
  | .doWhile b c _, env, σ, ρ, vs, hp, _, h => by
    have hb : Plain b.nodes := hp.mono (List.subset_append_left _ _)
    obtain h | ⟨_, _, _, σ₂, _, _, _, _, h⟩ := h
    · exact (starts_recorded b hb (agrees_empty σ) h).mono (List.Subset.refl _)
    · exact (starts_recorded b hb (agrees_empty σ₂) h).mono (List.Subset.refl _)
  | .null _, _, _, _, _, _, _, h | .decl .., _, _, _, _, _, _, h | .expr .., _, _, _, _, _, _, h
  | .ret .., _, _, _, _, _, _, h | .switch .., _, _, _, _, _, _, h
  | .caseLabel .., _, _, _, _, _, _, h | .defaultLabel _, _, _, _, _, _, _, h
  | .break _, _, _, _, _, _, _, h | .continue _, _, _, _, _, _, _, h
  | .goto .., _, _, _, _, _, _, h | .label .., _, _, _, _, _, _, h => h.elim

theorem startsIn_recorded : ∀ (ss : List Stmt) {env : ConstEnv} {σ ρ : Values} {vs : List Visit},
    Plain (Stmt.nodesOf ss) → env.Agrees σ → Stmt.StartsIn Stmt.Runs ss σ vs ρ →
      RecordedAt (ofStmts ss env) vs ρ
  | [], _, _, _, _, _, _, h => h.elim
  | s :: ss, env, σ, ρ, vs, hp, hσ, h => by
    have hs : Plain s.nodes := hp.mono (List.subset_append_left _ _)
    obtain h | ⟨τ, hrun, h⟩ := h
    · exact (starts_recorded s hs hσ h).mono (List.subset_append_left _ _)
    · have hrest := startsIn_recorded ss (hp.mono (List.subset_append_right _ _))
        (exit_agrees s hs hσ hrun) h
      exact hrest.mono (List.subset_append_right _ _)

end

/-- A record and the loop it is for: it binds nothing that the loop writes. -/
def IsFor (record : LoopId × ConstEnv) (sel : Selection) : Prop :=
  ∃ l : ForLoop, sel.stmt = l.stmt ∧ record.1 = l.header.id ∧
    ∀ x ∈ l.stmt.written, record.2.get? x = none

open Selection (loopsAt loopsOf)

mutual

/-- The loops of a statement have one record each, in order. -/
theorem loops_isFor : ∀ (s : Stmt) (env : ConstEnv) (depth : Nat) (before after : List Stmt),
    List.Forall₂ IsFor (ofStmt s env).loops (loopsAt depth before after s)
  | .compound ss _, env, depth, _, _ => loopsIn_isFor ss env depth []
  | .branch c t none _, env, depth, _, _ => by
    rw [ofStmt, loopsAt]
    split
    · exact loops_isFor t .empty depth [] []
    · exact loops_isFor t env depth [] []
  | .branch c t (some e) _, env, depth, _, _ => by
    rw [ofStmt, loopsAt]
    split
    · exact List.rel_append (loops_isFor t .empty depth [] []) (loops_isFor e .empty depth [] [])
    · exact List.rel_append (loops_isFor t env depth [] []) (loops_isFor e env depth [] [])
  | .forLoop f b s, env, depth, _, _ => by
    rw [ofStmt, loopsAt]
    refine .cons ⟨⟨f, b, s⟩, rfl, rfl, fun x hx => ?_⟩ (loops_isFor b _ (depth + 1) [] [])
    exact (IndexMap.get?_eraseAll _ _ _).trans (if_pos hx)
  | .whileLoop _ b _, _, depth, _, _ | .doWhile b _ _, _, depth, _, _
  | .switch _ b _, _, depth, _, _ | .label _ b _, _, depth, _, _ => loops_isFor b .empty depth [] []
  | .null _, _, _, _, _ | .decl .., _, _, _, _ | .expr .., _, _, _, _ | .ret .., _, _, _, _
  | .caseLabel .., _, _, _, _ | .defaultLabel _, _, _, _, _ | .break _, _, _, _, _
  | .continue _, _, _, _, _ | .goto .., _, _, _, _ => .nil

theorem loopsIn_isFor : ∀ (ss : List Stmt) (env : ConstEnv) (depth : Nat) (before : List Stmt),
    List.Forall₂ IsFor (ofStmts ss env).loops (loopsOf depth before ss)
  | [], _, _, _ => .nil
  | s :: ss, env, depth, before =>
    List.rel_append (loops_isFor s env depth before ss) (loopsIn_isFor ss _ depth (before ++ [s]))

end

def handles (ss : List Stmt) : List LoopId :=
  (loopsOf 0 [] ss).filterMap fun sel => sel.stmt.forLoop?.map (·.header.id)

section Records

variable {env : ConstEnv} {ss : List Stmt}

theorem map_fst_eq_filterMap {records : List (LoopId × ConstEnv)} {sels : List Selection}
    (h : List.Forall₂ IsFor records sels) :
    records.map Prod.fst = sels.filterMap fun sel => sel.stmt.forLoop?.map (·.header.id) := by
  induction h with
  | nil => rfl
  | cons hr _ ih =>
    obtain ⟨l, hstmt, hid, -⟩ := hr
    rw [List.map_cons, ih, hid, List.filterMap_cons, hstmt]
    rfl

theorem exists_record {records : List (LoopId × ConstEnv)} {sels : List Selection}
    (h : List.Forall₂ IsFor records sels) {sel : Selection} (hsel : sel ∈ sels) :
    ∃ r ∈ records, IsFor r sel := by
  induction h with
  | nil => cases hsel
  | cons hr _ ih =>
    obtain rfl | hsel := List.mem_cons.mp hsel
    · exact ⟨_, List.mem_cons_self, hr⟩
    · obtain ⟨r, hmem, hr⟩ := ih hsel
      exact ⟨r, List.mem_cons_of_mem _ hmem, hr⟩

theorem envAt?_of_mem (hids : (handles ss).Nodup) {id : LoopId} {e : ConstEnv}
    (h : (id, e) ∈ (ofStmts ss env).loops) : (ofStmts ss env).envAt? id = some e := by
  obtain ⟨l₁, l₂, hl⟩ := List.append_of_mem h
  refine List.lookup_eq_some_iff.mpr ⟨l₁, l₂, hl, fun p hp => bne_iff_ne.mpr ?_⟩
  have hnodup : ((ofStmts ss env).loops.map Prod.fst).Nodup := by
    rw [map_fst_eq_filterMap (loopsIn_isFor ss env 0 [])]
    exact hids
  rw [hl, List.map_append, List.nodup_append] at hnodup
  rintro rfl
  exact hnodup.2.2 _ (List.mem_map_of_mem hp) _ List.mem_cons_self rfl

theorem exists_envAt? (hids : (handles ss).Nodup) {sel : Selection} (hsel : sel ∈ loopsOf 0 [] ss)
    {l : ForLoop} (hl : sel.stmt.forLoop? = some l) :
    ∃ e, (ofStmts ss env).envAt? l.header.id = some e ∧
      ∀ x ∈ sel.stmt.written, e.get? x = none := by
  obtain ⟨⟨id, e⟩, hmem, l', hstmt, hid, hfree⟩ := exists_record (loopsIn_isFor ss env 0 []) hsel
  have hid' : id = l'.header.id := hid
  rw [hstmt] at hl ⊢
  cases hl
  exact ⟨e, envAt?_of_mem hids (hid' ▸ hmem), hfree⟩

end Records

namespace BoundedFill

/-- `for (i = 0; i < n; i++) m = n;` -/
def loop : ForLoop where
  header :=
    { id := 0
      init := some (.expr (.assign .plain (.ident 1 .none) (.int 0 .none) .none) .none)
      cond := some (.binary .lt (.ident 1 .none) (.ident 0 .none) .none)
      incr := some (.unary .postIncr (.ident 1 .none) .none) }
  body := .expr (.assign .plain (.ident 2 .none) (.ident 0 .none) .none) ⟨.none, []⟩
  site := ⟨.none, []⟩

/-- `n = 4;` and the loop. -/
def body : List Stmt :=
  [.expr (.assign .plain (.ident 0 .none) (.int 4 .none) .none) ⟨.none, []⟩, loop.stmt]

def bound : Values := Function.update (fun _ => 7) 0 4

def first : Values := Function.update bound 1 0

def filled : Values := Function.update first 2 4

def second : Values := Function.update filled 1 1

theorem yields_assign (x : Symbol) {e : Expr} {s t : Span} {σ : Values} {n : Int}
    (he : e.Yields σ n σ) :
    (Expr.assign .plain (.ident x s) e t).Yields σ n (Function.update σ x n) :=
  ⟨σ x, n, σ, .inl ⟨σ, ⟨rfl, rfl⟩, he⟩, rfl, rfl⟩

theorem tests_true {σ : Values} (h : σ 1 < σ 0) : Tests loop.header.cond true σ σ := by
  have hlt : BinaryOp.lt.result? (σ 1) (σ 0) = some 1 := by simp [BinaryOp.result?, truth, h]
  exact ⟨1, .inr ⟨σ 1, σ 0, rfl, hlt, .inl ⟨σ, ⟨rfl, rfl⟩, ⟨rfl, rfl⟩⟩⟩, rfl⟩

theorem iterates_first : Iterates loop.header.cond loop.header.incr loop.body.Runs first
    [(first, filled)] second := by
  have hbody : loop.body.Runs first .done filled := ⟨rfl, 4, yields_assign 2 ⟨rfl, rfl⟩⟩
  have hstep : Steps loop.header.incr filled second :=
    ⟨0, 0, 1, filled, ⟨rfl, rfl⟩, rfl, rfl, rfl⟩
  exact .next .start (tests_true (by decide)) hbody rfl hstep

theorem starts_second :
    Stmt.StartsIn Stmt.Runs body (fun _ => 7)
      [⟨loop, [(first, filled), (second, second)]⟩] second := by
  refine .inr ⟨bound, ⟨rfl, 4, yields_assign 0 ⟨rfl, rfl⟩⟩, .inl ?_⟩
  exact ⟨first, _, second, second, ⟨0, yields_assign 1 ⟨rfl, rfl⟩⟩, iterates_first,
    tests_true (by decide), [], rfl, .inl ⟨rfl, rfl⟩⟩

end BoundedFill

end Flow

end LoopLegality

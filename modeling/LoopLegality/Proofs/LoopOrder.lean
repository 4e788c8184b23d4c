import LoopLegality.Proofs.Constants
import LoopLegality.Proofs.Trace

namespace LoopLegality

namespace Stmt

def children : Stmt → List Stmt
  | forLoop _ b _ | whileLoop _ b _ | doWhile b _ _ | switch _ b _ | label _ b _ => [b]
  | compound ss _ => ss
  | branch _ y n _ => y :: n.toList
  | _ => []

/-- The statement at a place. A place is told from the outside in, by which child it is in. -/
def at? : Stmt → List Nat → Option Stmt
  | s, [] => some s
  | s, i :: p => s.children[i]?.bind (·.at? p)

def IsLoopAt (s : Stmt) (p : List Nat) : Prop := ∃ h b site, s.at? p = some (.forLoop h b site)

def loopsAround (s : Stmt) (p : List Nat) : Nat :=
  p.inits.dropLast.countP fun q => (s.at? q).any (·.forLoop?.isSome)

/-- The statements of the block that a place is in, and which of them it is. What stands right
inside a statement that is no block stands alone. -/
def rowAt (s : Stmt) (p : List Nat) : Option (List Stmt × Nat) :=
  match p.getLast?, s.at? p.dropLast with
  | some i, some (.compound ss _) => some (ss, i)
  | _, _ => (s.at? p).map fun t => ([t], 0)

mutual

def loopPlaces : Stmt → List (List Nat)
  | forLoop _ b _ => [] :: b.loopPlaces.map (0 :: ·)
  | compound ss _ => loopPlacesFrom 0 ss
  | branch _ y none _ => y.loopPlaces.map (0 :: ·)
  | branch _ y (some n) _ => y.loopPlaces.map (0 :: ·) ++ n.loopPlaces.map (1 :: ·)
  | whileLoop _ b _ | doWhile b _ _ | switch _ b _ | label _ b _ => b.loopPlaces.map (0 :: ·)
  | _ => []

def loopPlacesFrom : Nat → List Stmt → List (List Nat)
  | _, [] => []
  | k, s :: ss => s.loopPlaces.map (k :: ·) ++ loopPlacesFrom (k + 1) ss

end

theorem loopPlaces_eq (s : Stmt) : s.loopPlaces =
    (if s.forLoop?.isSome then [[]] else []) ++ loopPlacesFrom 0 s.children := by
  cases s with
  | branch c y n site => cases n <;> simp [loopPlaces, loopPlacesFrom, children, forLoop?]
  | _ => simp [loopPlaces, loopPlacesFrom, children, forLoop?]

theorem mem_loopPlacesFrom {k : Nat} {ss : List Stmt} {p : List Nat} :
    p ∈ loopPlacesFrom k ss ↔
      ∃ i q c, p = (k + i) :: q ∧ ss[i]? = some c ∧ q ∈ c.loopPlaces := by
  induction ss generalizing k with
  | nil => simp [loopPlacesFrom]
  | cons s ss ih =>
    rw [loopPlacesFrom, List.mem_append, ih, List.mem_map]
    constructor
    · rintro (⟨q, hq, rfl⟩ | ⟨i, q, c, rfl, hc, hq⟩)
      · exact ⟨0, q, s, rfl, rfl, hq⟩
      · exact ⟨i + 1, q, c, by rw [Nat.add_right_comm, Nat.add_assoc], hc, hq⟩
    · rintro ⟨i, q, c, rfl, hc, hq⟩
      cases i with
      | zero =>
        cases hc
        exact .inl ⟨q, hq, rfl⟩
      | succ i => exact .inr ⟨i, q, c, by rw [Nat.add_right_comm, Nat.add_assoc], hc, hq⟩

theorem mem_loopPlaces {s : Stmt} {p : List Nat} : p ∈ s.loopPlaces ↔ s.IsLoopAt p := by
  induction p generalizing s with
  | nil =>
    rw [loopPlaces_eq, List.mem_append, mem_loopPlacesFrom]
    cases s <;> simp [IsLoopAt, at?, forLoop?]
  | cons i p ih =>
    have hown : i :: p ∉ if s.forLoop?.isSome then [[]] else [] := by split <;> simp
    rw [loopPlaces_eq, List.mem_append, or_iff_right hown, mem_loopPlacesFrom]
    constructor
    · rintro ⟨j, q, c, heq, hc, hq⟩
      rw [Nat.zero_add] at heq
      obtain ⟨rfl, rfl⟩ := List.cons.inj heq
      obtain ⟨h, b, site, hb⟩ := ih.mp hq
      exact ⟨h, b, site, by rw [at?, hc, Option.bind_some, hb]⟩
    · rintro ⟨h, b, site, hb⟩
      obtain ⟨c, hc, hb⟩ := Option.bind_eq_some_iff.mp hb
      exact ⟨i, p, c, by rw [Nat.zero_add], hc, ih.mpr ⟨h, b, site, hb⟩⟩

theorem pairwise_map_cons {ps : List (List Nat)} (h : ps.Pairwise (· < ·)) (k : Nat) :
    (ps.map (k :: ·)).Pairwise (· < ·) :=
  List.pairwise_map.mpr (h.imp fun hpq => List.Lex.cons hpq)

theorem pairwise_append_from {ps : List (List Nat)} {k : Nat} {ss : List Stmt}
    (h : ps.Pairwise (· < ·)) (h' : (loopPlacesFrom (k + 1) ss).Pairwise (· < ·)) :
    (ps.map (k :: ·) ++ loopPlacesFrom (k + 1) ss).Pairwise (· < ·) := by
  refine List.pairwise_append.mpr ⟨pairwise_map_cons h k, h', fun p hp q hq => ?_⟩
  obtain ⟨p, -, rfl⟩ := List.mem_map.mp hp
  obtain ⟨i, q, c, rfl, -, -⟩ := mem_loopPlacesFrom.mp hq
  exact List.Lex.rel (by omega)

mutual

theorem loopPlaces_sorted : ∀ s : Stmt, s.loopPlaces.Pairwise (· < ·)
  | forLoop _ b _ => by
    refine List.pairwise_cons.mpr ⟨fun p hp => ?_, pairwise_map_cons (loopPlaces_sorted b) 0⟩
    obtain ⟨p, -, rfl⟩ := List.mem_map.mp hp
    exact List.Lex.nil
  | compound ss _ => loopPlacesFrom_sorted 0 ss
  | branch _ y none _ => pairwise_map_cons (loopPlaces_sorted y) 0
  | branch _ y (some n) _ => by
    have hn : (loopPlacesFrom 1 [n]).Pairwise (· < ·) := by
      rw [loopPlacesFrom, loopPlacesFrom, List.append_nil]
      exact pairwise_map_cons (loopPlaces_sorted n) 1
    have hall := pairwise_append_from (k := 0) (loopPlaces_sorted y) hn
    rwa [loopPlacesFrom, loopPlacesFrom, List.append_nil] at hall
  | whileLoop _ b _ | doWhile b _ _ | switch _ b _ | label _ b _ =>
    pairwise_map_cons (loopPlaces_sorted b) 0
  | decl .. | expr .. | null _ | ret .. | caseLabel .. | defaultLabel _ | .break _ | .continue _
  | goto .. => .nil

theorem loopPlacesFrom_sorted : ∀ (k : Nat) (ss : List Stmt),
    (loopPlacesFrom k ss).Pairwise (· < ·)
  | _, [] => .nil
  | k, s :: ss => pairwise_append_from (loopPlaces_sorted s) (loopPlacesFrom_sorted (k + 1) ss)

end

theorem at?_cons {s c : Stmt} {i : Nat} (hc : s.children[i]? = some c) (p : List Nat) :
    s.at? (i :: p) = c.at? p := by
  rw [at?, hc, Option.bind_some]

theorem loopsAround_cons {s c : Stmt} {i : Nat} (hc : s.children[i]? = some c) (p : List Nat) :
    s.loopsAround (i :: p) = (if s.forLoop?.isSome then 1 else 0) + c.loopsAround p := by
  have hne : p.inits ≠ [] := fun h => by simpa using congrArg List.length h
  have hinits : (i :: p).inits.dropLast = [] :: p.inits.dropLast.map (i :: ·) := by
    rw [List.inits_cons, List.dropLast_cons_of_ne_nil (by simpa using hne), List.map_dropLast]
  rw [loopsAround, hinits, List.countP_cons, List.countP_map, Nat.add_comm]
  congr 1
  refine List.countP_congr fun q _ => ?_
  rw [Function.comp_apply, at?_cons hc]

theorem rowAt_cons {s c : Stmt} {i j : Nat} (hc : s.children[i]? = some c) (p : List Nat) :
    s.rowAt (i :: j :: p) = c.rowAt (j :: p) := by
  rw [rowAt, rowAt, List.getLast?_cons_cons, List.dropLast_cons_cons, at?_cons hc, at?_cons hc]

theorem rowAt_block {ss : List Stmt} {site : Site} {i : Nat} {c : Stmt} (hc : ss[i]? = some c) :
    (compound ss site).rowAt [i] =
      some (ss.take i ++ c :: ss.drop (i + 1), (ss.take i).length) := by
  obtain ⟨hlt, rfl⟩ := List.getElem?_eq_some_iff.mp hc
  have hrow : (compound ss site).rowAt [i] = some (ss, i) := rfl
  rw [hrow, List.getElem_cons_drop, List.take_append_drop,
    List.length_take_of_le (Nat.le_of_lt hlt)]

theorem rowAt_alone {s c : Stmt} {i : Nat} (hs : ∀ ss site, s ≠ .compound ss site)
    (hc : s.children[i]? = some c) : s.rowAt [i] = some ([c], 0) := by
  have hat : s.at? [i] = some c := at?_cons hc []
  rw [rowAt, hat]
  cases s with
  | compound ss site => exact absurd rfl (hs ss site)
  | _ => rfl

end Stmt

namespace Selection

/-- The loop at a place of a function's body. -/
structure StandsAt (body : Stmt) (p : List Nat) (sel : Selection) : Prop where
  stmt : body.at? p = some sel.stmt
  row : body.rowAt p = some (sel.siblings, sel.index)
  own : sel.siblings[sel.index]? = some sel.stmt
  depth : sel.depth = body.loopsAround p

/-- The loop at a place of a statement that is itself inside `depth` loops, between siblings. -/
structure StandsIn (depth : Nat) (before after : List Stmt) (s : Stmt) (p : List Nat)
    (sel : Selection) : Prop where
  stmt : s.at? p = some sel.stmt
  depth : sel.depth = depth + s.loopsAround p
  here : p = [] → sel.before = before ∧ sel.after = after
  row : p ≠ [] → s.rowAt p = some (sel.siblings, sel.index)

variable {depth : Nat} {before after : List Stmt} {s c : Stmt} {i : Nat} {p : List Nat}
  {sel : Selection}

theorem getElem?_siblings (sel : Selection) : sel.siblings[sel.index]? = some sel.stmt := by
  simp [siblings, index]

theorem StandsIn.cons {depth' : Nat} {before' after' : List Stmt}
    (h : StandsIn depth' before' after' c p sel) (hc : s.children[i]? = some c)
    (hdepth : depth' = depth + if s.forLoop?.isSome then 1 else 0)
    (hrow : s.rowAt [i] = some (before' ++ c :: after', before'.length)) :
    StandsIn depth before after s (i :: p) sel where
  stmt := (Stmt.at?_cons hc p).trans h.stmt
  depth := by rw [h.depth, hdepth, Stmt.loopsAround_cons hc, Nat.add_assoc]
  here := nofun
  row _ := by
    cases p with
    | nil =>
      obtain ⟨hbefore, hafter⟩ := h.here rfl
      cases h.stmt
      rw [hrow, siblings, index, hbefore, hafter]
    | cons j p => rw [Stmt.rowAt_cons hc, h.row (by simp)]

theorem StandsIn.only {depth' : Nat} (h : StandsIn depth' [] [] c p sel)
    (hs : ∀ ss site, s ≠ .compound ss site) (hc : s.children[i]? = some c)
    (hdepth : depth' = depth + if s.forLoop?.isSome then 1 else 0) :
    StandsIn depth before after s (i :: p) sel :=
  h.cons hc hdepth (Stmt.rowAt_alone hs hc)

theorem forall₂_map {ps : List (List Nat)} {sels : List Selection}
    {R S : List Nat → Selection → Prop} (h : List.Forall₂ R ps sels)
    (hRS : ∀ p sel, R p sel → S (i :: p) sel) : List.Forall₂ S (ps.map (i :: ·)) sels :=
  List.forall₂_map_left_iff.mpr (h.imp hRS)

mutual

/-- The loops of a statement, one for each place. -/
theorem loopsAt_standsIn : ∀ (s : Stmt) (depth : Nat) (before after : List Stmt),
    List.Forall₂ (StandsIn depth before after s) s.loopPlaces (loopsAt depth before after s)
  | .forLoop h b site, depth, before, after => by
    refine .cons ⟨rfl, rfl, fun _ => ⟨rfl, rfl⟩, fun hne => absurd rfl hne⟩ ?_
    exact forall₂_map (loopsAt_standsIn b (depth + 1) [] []) fun p sel hsel =>
      hsel.only (by simp) rfl rfl
  | .compound ss site, depth, before, after => by
    refine (loopsOf_standsIn [] ss depth).imp ?_
    rintro _ sel ⟨j, q, c, rfl, hc, hsel⟩
    exact hsel.cons hc rfl (Stmt.rowAt_block hc)
  | .branch _ y none _, depth, before, after =>
    forall₂_map (loopsAt_standsIn y depth [] []) fun p sel hsel => hsel.only (by simp) rfl rfl
  | .branch _ y (some n) _, depth, before, after =>
    List.rel_append
      (forall₂_map (loopsAt_standsIn y depth [] []) fun p sel hsel => hsel.only (by simp) rfl rfl)
      (forall₂_map (loopsAt_standsIn n depth [] []) fun p sel hsel => hsel.only (by simp) rfl rfl)
  | .whileLoop _ b _, depth, before, after | .doWhile b _ _, depth, before, after
  | .switch _ b _, depth, before, after | .label _ b _, depth, before, after =>
    forall₂_map (loopsAt_standsIn b depth [] []) fun p sel hsel => hsel.only (by simp) rfl rfl
  | .decl .., _, _, _ | .expr .., _, _, _ | .null _, _, _, _ | .ret .., _, _, _
  | .caseLabel .., _, _, _ | .defaultLabel _, _, _, _ | .break _, _, _, _ | .continue _, _, _, _
  | .goto .., _, _, _ => .nil

theorem loopsOf_standsIn : ∀ (before ss : List Stmt) (depth : Nat),
    List.Forall₂
      (fun p sel => ∃ j q c, p = j :: q ∧ (before ++ ss)[j]? = some c ∧
        StandsIn depth ((before ++ ss).take j) ((before ++ ss).drop (j + 1)) c q sel)
      (Stmt.loopPlacesFrom before.length ss) (loopsOf depth before ss)
  | _, [], _ => .nil
  | before, s :: ss, depth => by
    refine List.rel_append
      (forall₂_map (loopsAt_standsIn s depth before ss) fun p sel hsel => ?_) ?_
    · exact ⟨_, p, s, rfl, by simp, by simpa using hsel⟩
    · have hrest := loopsOf_standsIn (before ++ [s]) ss depth
      simpa using hrest

end

theorem all_eq_loopsAt (f : Function) : all f = loopsAt 0 [] [] f.body := by
  rw [all, Function.statements]
  cases f.body <;> simp [Stmt.statements, loopsOf, loopsAt]

theorem all_standsAt (f : Function) :
    List.Forall₂ (StandsAt f.body) f.body.loopPlaces (all f) := by
  rw [all_eq_loopsAt]
  refine (loopsAt_standsIn f.body 0 [] []).imp fun p sel hsel => ?_
  refine ⟨hsel.stmt, ?_, sel.getElem?_siblings, hsel.depth.trans (Nat.zero_add _)⟩
  cases p with
  | nil =>
    obtain ⟨hbefore, hafter⟩ := hsel.here rfl
    have hstmt : f.body = sel.stmt := Option.some.inj hsel.stmt
    rw [siblings, index, hbefore, hafter, ← hstmt]
    rfl
  | cons i p => exact hsel.row (by simp)

end Selection

namespace Reader

open Item (loops)

variable (c : Reader)

@[simp] theorem loops_declaration (ds : List Declarator) : loops (c.declarationItems ds) = [] := by
  induction ds with
  | nil => rfl
  | cons d ds ih => simpa [declarationItems, declaratorItems] using ih

@[simp] theorem loops_parameters (k : Nat) (ds : List Declarator) :
    loops (c.parameterItems k ds) = [] := by
  induction ds generalizing k with
  | nil => rfl
  | cons d ds ih => simp [parameterItems, declaratorItems, ih]

@[simp] theorem loops_forHeader (h : ForHeader) : loops (c.forHeaderItems h) = [] := by
  have hinit : loops (c.forInitItems h.init) = [] := by
    cases h.init with
    | none => rfl
    | some i => cases i <;> simp [forInitItems]
  simp [forHeaderItems, hinit]

theorem loops_externals (es : List Grammar.External) (t : SymbolTable) :
    loops (es.flatMap c.externalItems) =
      (Program.ofExternals es t).functions.flatMap fun f => loops (c.stmtItems f.body) := by
  induction es with
  | nil => rfl
  | cons e es ih =>
    rw [List.flatMap_cons, Item.loops_append, ih]
    cases e <;> simp [Program.ofExternals, externalItems, functionItems]

end Reader

namespace Selection

open Item (loops)

def id? (sel : Selection) : Option LoopId := sel.stmt.forLoop?.map (·.header.id)

mutual

/-- The loops of a statement are listed in the order of its text. -/
theorem map_id?_loopsAt (c : Reader) : ∀ (s : Stmt) (depth : Nat) (before after : List Stmt),
    (loopsAt depth before after s).map id? = (loops (c.stmtItems s)).map some
  | .forLoop h b site, depth, before, after => by
    simp [loopsAt, map_id?_loopsAt c b (depth + 1) [] [], id?, Stmt.forLoop?]
  | .compound ss _, depth, _, _ => by simp [loopsAt, map_id?_loopsOf c ss depth []]
  | .branch _ y none _, depth, _, _ => by simp [loopsAt, map_id?_loopsAt c y depth [] []]
  | .branch _ y (some n) _, depth, _, _ => by
    simp [loopsAt, map_id?_loopsAt c y depth [] [], map_id?_loopsAt c n depth [] []]
  | .whileLoop _ b _, depth, _, _ | .doWhile b _ _, depth, _, _ | .switch _ b _, depth, _, _
  | .label _ b _, depth, _, _ => by simp [loopsAt, map_id?_loopsAt c b depth [] []]
  | .decl .., _, _, _ | .expr .., _, _, _ | .null _, _, _, _ | .ret .., _, _, _
  | .caseLabel .., _, _, _ | .defaultLabel _, _, _, _ | .break _, _, _, _ | .continue _, _, _, _
  | .goto .., _, _, _ => by simp [loopsAt]

theorem map_id?_loopsOf (c : Reader) : ∀ (ss : List Stmt) (depth : Nat) (before : List Stmt),
    (loopsOf depth before ss).map id? = (loops (c.blockItems ss)).map some
  | [], _, _ => by simp [loopsOf]
  | s :: ss, depth, before => by
    simp [loopsOf, map_id?_loopsAt c s depth before ss, map_id?_loopsOf c ss depth (before ++ [s])]

end

theorem map_id?_all (c : Reader) (f : Function) :
    (all f).map id? = (loops (c.stmtItems f.body)).map some := by
  rw [all_eq_loopsAt]
  exact map_id?_loopsAt c f.body 0 [] []

end Selection

namespace Grammar

variable {all : List Token} {s s' : State} {is : List Item}

/-- Loops are numbered in the order in which they are read. -/
theorem Goes.loops_eq_range' (h : Goes all s is s') : s.nextLoop ≤ s'.nextLoop ∧
    Item.loops is = List.range' s.nextLoop (s'.nextLoop - s.nextLoop) := by
  induction h with
  | nil hskip => simp [hskip.nextLoop]
  | @cons s s₁ s₂ s' i is hskip hdoes _ ih =>
    obtain ⟨hle, hrest⟩ := ih
    rw [← hskip.nextLoop]
    cases hdoes with
    | event => exact ⟨hle, hrest⟩
    | expr f w h =>
      rw [← (formOf_onward f h).nextLoop]
      exact ⟨hle, hrest⟩
    | loop =>
      have hlt : s₁.nextLoop < s'.nextLoop := hle
      refine ⟨Nat.le_of_lt hlt, ?_⟩
      rw [Item.loops, hrest, ← List.range'_succ]
      congr 1
      have hsub : s'.nextLoop - (s₁.nextLoop + 1) + 1 = s'.nextLoop - s₁.nextLoop := by omega
      exact hsub

end Grammar

theorem eq_range'_of_infix {n : Nat} {before mid after : List Nat}
    (h : List.range n = before ++ (mid ++ after)) : mid = List.range' before.length mid.length := by
  refine List.ext_getElem (by simp) fun i hi _ => ?_
  have hget : (List.range n)[before.length + i]? = some mid[i] := by
    rw [h, List.getElem?_append_right (Nat.le_add_right _ _), Nat.add_sub_cancel_left,
      List.getElem?_append_left hi, List.getElem?_eq_getElem hi]
  obtain ⟨_, hget⟩ := List.getElem?_eq_some_iff.mp hget
  rw [← hget, List.getElem_range, List.getElem_range', Nat.one_mul]

namespace Flow

theorem envAt?_isSome_iff (f : Function) (id : LoopId) :
    ((ofFunction f).envAt? id).isSome ↔ some id ∈ (Selection.all f).map Selection.id? := by
  have hkeys : (ofFunction f).loops.map Prod.fst = (Selection.all f).filterMap Selection.id? :=
    map_fst_eq_filterMap (loopsIn_isFor f.statements .empty 0 [])
  rw [envAt?, List.lookup_isSome_iff]
  have hmem : id ∈ (ofFunction f).loops.map Prod.fst ↔
      some id ∈ (Selection.all f).map Selection.id? := by
    rw [hkeys, List.mem_filterMap, List.mem_map]
  simp [← hmem]

end Flow

namespace Program

theorem loops_eq_range {source : String} {p : Program} (h : parse source = .ok p) :
    ∃ c : Reader, ∃ n, (p.functions.flatMap fun f => Item.loops (c.stmtItems f.body)) =
      List.range n := by
  rw [parse] at h
  cases hexternals : Grammar.externals (.start (Token.scan source)) with
  | error e => simp [hexternals, bind, Except.bind] at h
  | ok r =>
    obtain ⟨es, s⟩ := r
    simp only [hexternals, bind, Except.bind, pure, Except.pure, Except.ok.injEq] at h
    subst h
    have hmoves := Grammar.externals_traces (Grammar.within_start source) hexternals
    obtain ⟨-, hloops⟩ := (hmoves.goes s.scopes.table (.refl _)).loops_eq_range'
    rw [Reader.loops_externals _ es s.scopes.table] at hloops
    refine ⟨_, s.nextLoop, hloops.trans ?_⟩
    rw [List.range_eq_range']
    rfl

theorem length_all (f : Function) : (Selection.all f).length = f.body.loopPlaces.length :=
  (Selection.all_standsAt f).length_eq.symm

theorem length_loops (c : Reader) (f : Function) :
    (Item.loops (c.stmtItems f.body)).length = f.body.loopPlaces.length := by
  rw [← length_all, ← List.length_map Selection.id?, Selection.map_id?_all c f, List.length_map]

/-- The loops of every function of a text are listed once each and in preorder, among their
siblings and with the number of loops around them. They have consecutive numbers, beginning with
the number of loops in the functions before, and for exactly these an environment is recorded. -/
theorem loops_in_preorder {source : String} {p : Program} (h : parse source = .ok p)
    {before after : List Function} {f : Function} (hf : p.functions = before ++ f :: after) :
    ∃ places : Function → List (List Nat),
      (∀ g, (places g).Pairwise (· < ·) ∧ (∀ q, q ∈ places g ↔ g.body.IsLoopAt q) ∧
        List.Forall₂ (Selection.StandsAt g.body) (places g) (Selection.all g)) ∧
      (Selection.all f).map Selection.id? =
        (List.range' (before.map fun g => (places g).length).sum (places f).length).map some ∧
      ∀ id, ((Flow.ofFunction f).envAt? id).isSome ↔
        some id ∈ (Selection.all f).map Selection.id? := by
  obtain ⟨c, n, hloops⟩ := loops_eq_range h
  rw [hf, List.flatMap_append, List.flatMap_cons] at hloops
  have hids := eq_range'_of_infix hloops.symm
  rw [length_loops, List.length_flatMap] at hids
  refine ⟨fun g => g.body.loopPlaces, fun g => ⟨g.body.loopPlaces_sorted, fun q =>
    Stmt.mem_loopPlaces, Selection.all_standsAt g⟩, ?_, Flow.envAt?_isSome_iff f⟩
  rw [Selection.map_id?_all c f, hids]
  simp only [length_loops]

/-- Loops under a branch without braces, behind another statement of a block, and under a label
in a `while` body, all behind a function with a loop of its own. -/
theorem loops_in_preorder_nested :
    ∃ source p g f, source = "void g(int n) \x7b for (;;) n = 0; \x7d " ++
        "void f(int n) \x7b if (n) for (;;) \x7b n = 1; for (;;) ; \x7d " ++
        "else while (n) l: for (;;) n = 2; \x7d" ∧
      parse source = .ok p ∧ p.functions = [g, f] ∧
      ((Selection.all f).map fun sel => (sel.depth, sel.index, sel.siblings.length)) =
        [(0, 0, 1), (1, 1, 2), (0, 0, 1)] ∧
      (Selection.all f).map Selection.id? = [some 1, some 2, some 3] ∧
      ∀ id, ((Flow.ofFunction f).envAt? id).isSome ↔ id = 1 ∨ id = 2 ∨ id = 3 := by
  obtain ⟨source, hsource⟩ : ∃ source, source = "void g(int n) \x7b for (;;) n = 0; \x7d " ++
      "void f(int n) \x7b if (n) for (;;) \x7b n = 1; for (;;) ; \x7d " ++
      "else while (n) l: for (;;) n = 2; \x7d" := ⟨_, rfl⟩
  have hrun : ((parse source).toOption.map fun p => p.functions.map fun f =>
      (Selection.all f).map fun sel => (sel.depth, sel.index, sel.siblings.length)) =
        some [[(0, 0, 1)], [(0, 0, 1), (1, 1, 2), (0, 0, 1)]] := by
    subst hsource
    decide +kernel
  obtain ⟨p, hp, hfunctions⟩ := Option.map_eq_some_iff.mp hrun
  have hparse : parse source = .ok p := by
    cases h : parse source with
    | error e => simp [h, Except.toOption] at hp
    | ok q => exact congrArg _ (Option.some.inj (by simpa [h, Except.toOption] using hp))
  obtain ⟨g, fs, hgf, hg, hfs⟩ := List.map_eq_cons_iff.mp hfunctions
  obtain ⟨f, rest, rfl, hf, hrest⟩ := List.map_eq_cons_iff.mp hfs
  obtain rfl := List.map_eq_nil_iff.mp hrest
  have hsplit : p.functions = [g] ++ f :: [] := hgf
  obtain ⟨places, hplaces, hids, henv⟩ := loops_in_preorder hparse hsplit
  have hlength (k : Function) : (places k).length = (Selection.all k).length :=
    (hplaces k).2.2.length_eq
  have hone : (Selection.all g).length = 1 := by simpa using congrArg List.length hg
  have hthree : (Selection.all f).length = 3 := by simpa using congrArg List.length hf
  have hall : (Selection.all f).map Selection.id? = [some 1, some 2, some 3] := by
    rw [hids, List.map_singleton, hlength, hlength, hone, hthree]
    rfl
  refine ⟨source, p, g, f, hsource, hparse, hgf, hf, hall, fun id => ?_⟩
  rw [henv, hall]
  simp

end Program

end LoopLegality

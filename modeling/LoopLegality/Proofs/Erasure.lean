import LoopLegality.Proofs.Reading
import LoopLegality.Transformation.Check

namespace LoopLegality

mutual

def Initializer.erase : Initializer → Initializer
  | .expr e => .expr e.erase
  | .list items => .list (Initializer.eraseAll items)

def Initializer.eraseAll : List Initializer → List Initializer
  | [] => []
  | i :: is => i.erase :: Initializer.eraseAll is

end

@[simps] def Declarator.erase (d : Declarator) : Declarator :=
  { d with
    dims := d.dims.map (·.map Expr.erase)
    init := d.init.map Initializer.erase
    span := .none }

@[simps] def Declaration.erase (d : Declaration) : Declaration :=
  ⟨d.declarators.map Declarator.erase, .none⟩

def ForInit.erase : ForInit → ForInit
  | .decl d => .decl d.erase
  | .expr e _ => .expr e.erase .none
  | .null _ => .null .none

@[simps] def ForHeader.erase (h : ForHeader) : ForHeader :=
  { h with
    init := h.init.map ForInit.erase
    cond := h.cond.map Expr.erase
    incr := h.incr.map Expr.erase }

/-- The pragmas of a statement are no layout. -/
@[simps] def Site.erase (s : Site) : Site := ⟨.none, s.pragmas⟩

mutual

def Stmt.erase : Stmt → Stmt
  | .decl ds s => .decl (ds.map Declarator.erase) s.erase
  | .expr e s => .expr e.erase s.erase
  | .forLoop h b s => .forLoop h.erase b.erase s.erase
  | .compound ss s => .compound (Stmt.eraseAll ss) s.erase
  | .null s => .null s.erase
  | .branch c t none s => .branch c.erase t.erase none s.erase
  | .branch c t (some e) s => .branch c.erase t.erase (some e.erase) s.erase
  | .ret e s => .ret (e.map Expr.erase) s.erase
  | .whileLoop c b s => .whileLoop c.erase b.erase s.erase
  | .doWhile b c s => .doWhile b.erase c.erase s.erase
  | .switch c b s => .switch c.erase b.erase s.erase
  | .caseLabel e s => .caseLabel e.erase s.erase
  | .defaultLabel s => .defaultLabel s.erase
  | .break s => .break s.erase
  | .continue s => .continue s.erase
  | .goto l s => .goto l s.erase
  | .label n b s => .label n b.erase s.erase

def Stmt.eraseAll : List Stmt → List Stmt
  | [] => []
  | s :: ss => s.erase :: Stmt.eraseAll ss

end

@[simps] def ForLoop.erase (l : ForLoop) : ForLoop := ⟨l.header.erase, l.body.erase, l.site.erase⟩

@[simps] def Function.erase (f : Function) : Function :=
  { f with params := f.params.map Declarator.erase, body := f.body.erase, span := .none }

@[simps] def Symbol.Info.erase (i : Symbol.Info) : Symbol.Info := { i with span := .none }

def SymbolTable.erase (t : SymbolTable) : SymbolTable := ⟨t.infos.map Symbol.Info.erase⟩

@[simps] def Program.erase (p : Program) : Program :=
  ⟨p.functions.map Function.erase, p.globals.map Declaration.erase, p.symbols.erase⟩

def Node.erase : Node → Node
  | declarator d => declarator d.erase
  | expr e => expr e.erase

@[simps] def Selection.erase (s : Selection) : Selection :=
  ⟨Stmt.eraseAll s.before, s.stmt.erase, Stmt.eraseAll s.after, s.depth⟩

theorem find?_map_of_keeps {α : Type} {f : α → α} {p : α → Bool} (h : ∀ a, p (f a) = p a)
    (as : List α) : (as.map f).find? p = (as.find? p).map f := by
  rw [List.find?_map]
  exact congrArg (fun q => (as.find? q).map f) (funext h)

attribute [simp] Expr.erase Expr.eraseAll Initializer.erase Initializer.eraseAll Stmt.erase
  Stmt.eraseAll

@[simp] theorem ForInit.erase_decl (d : Declaration) : (ForInit.decl d).erase = .decl d.erase := rfl

@[simp] theorem ForInit.erase_expr (e : Expr) (s : Span) :
    (ForInit.expr e s).erase = .expr e.erase .none := rfl

@[simp] theorem ForInit.erase_null (s : Span) : (ForInit.null s).erase = .null .none := rfl

@[simp] theorem Node.erase_declarator (d : Declarator) :
    (Node.declarator d).erase = .declarator d.erase := rfl

@[simp] theorem Node.erase_expr (e : Expr) : (Node.expr e).erase = .expr e.erase := rfl

namespace SymbolTable

variable (t : SymbolTable) (x : Symbol)

@[simp] theorem size_erase : t.erase.size = t.size := Array.size_map

@[simp] theorem info?_erase : t.erase.info? x = (t.info? x).map Symbol.Info.erase :=
  Array.getElem?_map

@[simp] theorem name_erase : t.erase.name x = t.name x := by
  simp [name, Function.comp_def]

@[simp] theorem kind?_erase : t.erase.kind? x = t.kind? x := by
  simp [kind?, Function.comp_def]

@[simp] theorem rank?_erase : t.erase.rank? x = t.rank? x := by
  simp [rank?]

@[simp] theorem isArrayOrPointer_erase : t.erase.isArrayOrPointer = t.isArrayOrPointer := by
  funext x
  simp [isArrayOrPointer]

theorem erase_declare (i : Symbol.Info) : t.erase.declare i.erase =
    ((t.declare i).1, (t.declare i).2.erase) := by
  simp [declare, erase, size]

theorem erase_refine (k : Symbol.Kind) : t.erase.refine x k = (t.refine x k).erase := by
  rw [refine, refine, info?_erase]
  cases h : t.info? x with
  | none => rfl
  | some i =>
    simp only [Option.map_some, Symbol.Info.erase]
    split
    · simp [erase, Symbol.Info.erase, Array.map_setIfInBounds]
    · rfl

end SymbolTable

namespace Expr

theorem eraseAll_eq_map (es : List Expr) : eraseAll es = es.map erase := by
  induction es with
  | nil => rfl
  | cons e es ih => simp [ih]

@[simp] theorem span_erase (e : Expr) : e.erase.span = .none := by
  cases e <;> rfl

@[simp] theorem ident?_erase (e : Expr) : e.erase.ident? = e.ident? := by
  cases e <;> rfl

@[simp] theorem int?_erase : ∀ e : Expr, e.erase.int? = e.int?
  | .unary op e _ => by cases op <;> simp [int?, int?_erase e]
  | .int .. | .float .. | .char .. | .str .. | .ident .. | .field .. | .subscript .. | .call ..
  | .binary .. | .assign .. | .conditional .. | .cast .. | .sizeOfType _ | .sizeOf ..
  | .comma .. => rfl

@[simp] theorem isEffect_erase (e : Expr) : e.erase.isEffect = e.isEffect := by
  cases e <;> rfl

@[simp] theorem mentions_erase (e : Expr) : e.erase.mentions = e.mentions := by
  cases e <;> rfl

@[simp] theorem targets_erase : ∀ e : Expr, e.erase.targets = e.targets
  | .subscript b _ _ => targets_erase b
  | .field o m _ _ => congrArg (m :: ·) (targets_erase o)
  | .unary op e _ => by cases op <;> simp [targets, targets_erase e]
  | .int .. | .float .. | .char .. | .str .. | .ident .. | .call .. | .binary .. | .assign ..
  | .conditional .. | .cast .. | .sizeOfType _ | .sizeOf .. | .comma .. => rfl

@[simp] theorem writes_erase (e : Expr) : e.erase.writes = e.writes := by
  cases e <;> simp [writes]

@[simp] theorem baseVariable?_erase : ∀ e : Expr, e.erase.baseVariable? = e.baseVariable?
  | .subscript b _ _ => baseVariable?_erase b
  | .field o _ _ _ => baseVariable?_erase o
  | .int .. | .float .. | .char .. | .str .. | .ident .. | .call .. | .unary .. | .binary ..
  | .assign .. | .conditional .. | .cast .. | .sizeOfType _ | .sizeOf .. | .comma .. => rfl

@[simp] theorem escaping_erase (t : SymbolTable) (e : Expr) :
    e.erase.escaping t.erase = e.escaping t := by
  cases e with
  | unary op e s => cases op <;> simp [escaping]
  | call f as s => simp [escaping, eraseAll_eq_map, List.filterMap_map]
  | _ => rfl

@[simp] theorem eval?_erase (env : ConstEnv) : ∀ e : Expr, e.erase.eval? env = e.eval? env
  | .int .. | .float .. | .char .. | .str .. | .ident .. | .field .. | .subscript .. | .call ..
  | .assign .. | .sizeOfType _ | .sizeOf .. | .comma .. => rfl
  | .unary op e _ => by simp [eval?, eval?_erase env e]
  | .binary op l r _ => by simp [eval?, eval?_erase env l, eval?_erase env r]
  | .conditional c t f _ => by
    simp [eval?, eval?_erase env c, eval?_erase env t, eval?_erase env f]
  | .cast _ e _ => eval?_erase env e

mutual

@[simp] theorem nodes_erase : ∀ e : Expr, e.erase.nodes = e.nodes.map erase
  | .int .. | .float .. | .char .. | .str .. | .ident .. | .sizeOfType _ => rfl
  | .field o .. => by simp [nodes, nodes_erase o]
  | .subscript b i _ => by simp [nodes, nodes_erase b, nodes_erase i]
  | .call f as _ => by simp [nodes, nodes_erase f, nodesOf_erase as]
  | .unary _ e _ => by simp [nodes, nodes_erase e]
  | .binary _ l r _ => by simp [nodes, nodes_erase l, nodes_erase r]
  | .assign _ l r _ => by simp [nodes, nodes_erase l, nodes_erase r]
  | .conditional c t f _ => by simp [nodes, nodes_erase c, nodes_erase t, nodes_erase f]
  | .cast _ e _ => by simp [nodes, nodes_erase e]
  | .sizeOf e _ => by simp [nodes, nodes_erase e]
  | .comma es _ => by simp [nodes, nodesOf_erase es]

theorem nodesOf_erase : ∀ es : List Expr, nodesOf (eraseAll es) = (nodesOf es).map erase
  | [] => rfl
  | e :: es => by simp [nodesOf, nodes_erase e, nodesOf_erase es]

end

@[simp] theorem hasEffect_erase (e : Expr) : e.erase.hasEffect = e.hasEffect := by
  simp [hasEffect, Function.comp_def]

@[simp] theorem occurrences_erase (e : Expr) :
    e.erase.occurrences = e.occurrences.map Node.erase := by
  simp [occurrences, Function.comp_def]

mutual

@[simp] theorem rename_erase (f : Symbol → Symbol) : ∀ e : Expr,
    e.erase.rename f = (e.rename f).erase
  | .int .. | .float .. | .char .. | .str .. | .ident .. | .sizeOfType _ => rfl
  | .field o .. => by simp [rename, rename_erase f o]
  | .subscript b i _ => by simp [rename, rename_erase f b, rename_erase f i]
  | .call g as _ => by simp [rename, rename_erase f g, renameAll_erase f as]
  | .unary _ e _ => by simp [rename, rename_erase f e]
  | .binary _ l r _ => by simp [rename, rename_erase f l, rename_erase f r]
  | .assign _ l r _ => by simp [rename, rename_erase f l, rename_erase f r]
  | .conditional c t e _ => by
    simp [rename, rename_erase f c, rename_erase f t, rename_erase f e]
  | .cast _ e _ => by simp [rename, rename_erase f e]
  | .sizeOf e _ => by simp [rename, rename_erase f e]
  | .comma es _ => by simp [rename, renameAll_erase f es]

theorem renameAll_erase (f : Symbol → Symbol) : ∀ es : List Expr,
    renameAll f (eraseAll es) = eraseAll (renameAll f es)
  | [] => rfl
  | e :: es => by simp [renameAll, rename_erase f e, renameAll_erase f es]

end

mutual

@[simp] theorem align?_erase : ∀ a b : Expr, a.erase.align? b.erase = a.align? b
  | .field o .., b => by
    cases b with
    | field => simp [align?, align?_erase o]
    | _ => rfl
  | .subscript c i _, b => by
    cases b with
    | subscript => simp [align?, align?_erase c, align?_erase i]
    | _ => rfl
  | .call f as _, b => by
    cases b with
    | call => simp [align?, align?_erase f, alignAll?_erase as]
    | _ => rfl
  | .unary _ e _, b => by
    cases b with
    | unary => simp [align?, align?_erase e]
    | _ => rfl
  | .binary _ l r _, b => by
    cases b with
    | binary => simp [align?, align?_erase l, align?_erase r]
    | _ => rfl
  | .assign _ l r _, b => by
    cases b with
    | assign => simp [align?, align?_erase l, align?_erase r]
    | _ => rfl
  | .conditional c t e _, b => by
    cases b with
    | conditional => simp [align?, align?_erase c, align?_erase t, align?_erase e]
    | _ => rfl
  | .cast _ e _, b => by
    cases b with
    | cast => simp [align?, align?_erase e]
    | _ => rfl
  | .sizeOf e _, b => by
    cases b with
    | sizeOf => simp [align?, align?_erase e]
    | _ => rfl
  | .comma es _, b => by
    cases b with
    | comma => simp [align?, alignAll?_erase es]
    | _ => rfl
  | .int .., b | .float .., b | .char .., b | .str .., b | .ident .., b | .sizeOfType _, b => by
    cases b <;> rfl

theorem alignAll?_erase : ∀ as bs : List Expr,
    alignAll? (eraseAll as) (eraseAll bs) = alignAll? as bs
  | [], [] | [], _ :: _ | _ :: _, [] => rfl
  | a :: as, b :: bs => by simp [alignAll?, align?_erase a b, alignAll?_erase as bs]

end

end Expr

namespace Initializer

theorem eraseAll_eq_map (is : List Initializer) : eraseAll is = is.map erase := by
  induction is with
  | nil => rfl
  | cons i is ih => simp [ih]

mutual

@[simp] theorem exprs_erase : ∀ i : Initializer, i.erase.exprs = i.exprs.map Expr.erase
  | .expr _ => rfl
  | .list items => exprsOf_erase items

theorem exprsOf_erase : ∀ is : List Initializer, exprsOf (eraseAll is) = (exprsOf is).map Expr.erase
  | [] => rfl
  | i :: is => by simp [exprsOf, exprs_erase i, exprsOf_erase is]

end

mutual

@[simp] theorem rename_erase (f : Symbol → Symbol) : ∀ i : Initializer,
    i.erase.rename f = (i.rename f).erase
  | .expr e => by simp [rename]
  | .list items => by simp [rename, renameAll_erase f items]

theorem renameAll_erase (f : Symbol → Symbol) : ∀ is : List Initializer,
    renameAll f (eraseAll is) = eraseAll (renameAll f is)
  | [] => rfl
  | i :: is => by simp [renameAll, rename_erase f i, renameAll_erase f is]

end

mutual

@[simp] theorem align?_erase : ∀ i j : Initializer, i.erase.align? j.erase = i.align? j
  | .expr a, .expr b => Expr.align?_erase a b
  | .list as, .list bs => alignAll?_erase as bs
  | .expr _, .list _ | .list _, .expr _ => rfl

theorem alignAll?_erase : ∀ is js : List Initializer,
    alignAll? (eraseAll is) (eraseAll js) = alignAll? is js
  | [], [] | [], _ :: _ | _ :: _, [] => rfl
  | i :: is, j :: js => by simp [alignAll?, align?_erase i j, alignAll?_erase is js]

end

end Initializer

namespace Alignment

variable {α : Type} {f : α → α → Option Alignment} {g : α → α}

theorem optional?_map (h : ∀ a b, f (g a) (g b) = f a b) (a b : Option α) :
    optional? f (a.map g) (b.map g) = optional? f a b := by
  cases a <;> cases b <;> simp [optional?, h]

theorem list?_map (h : ∀ a b, f (g a) (g b) = f a b) (as bs : List α) :
    list? f (as.map g) (bs.map g) = list? f as bs := by
  induction as generalizing bs with
  | nil => cases bs <;> rfl
  | cons a as ih => cases bs <;> simp [list?, h, ih]

end Alignment

namespace Declarator

@[simp] theorem exprs_erase (d : Declarator) : d.erase.exprs = d.exprs.map Expr.erase := by
  obtain ⟨x, dims, p, init, st, s⟩ := d
  cases init <;> simp [exprs, erase, List.filterMap_map, List.map_filterMap]

@[simp] theorem nodes_erase (d : Declarator) : d.erase.nodes = d.nodes.map Node.erase := by
  simp [nodes, List.flatMap_map, List.map_flatMap]

@[simp] theorem rename_erase (f : Symbol → Symbol) (d : Declarator) :
    d.erase.rename f = (d.rename f).erase := by
  simp [rename, erase, Function.comp_def]

@[simp] theorem align?_erase (d e : Declarator) : d.erase.align? e.erase = d.align? e := by
  simp [align?, Alignment.list?_map (Alignment.optional?_map Expr.align?_erase),
    Alignment.optional?_map Initializer.align?_erase]

end Declarator

@[simp] theorem Declaration.nodes_erase (d : Declaration) :
    d.erase.nodes = d.nodes.map Node.erase := by
  simp [Declaration.nodes, List.flatMap_map, List.map_flatMap]

@[simp] theorem ForInit.nodes_erase (i : ForInit) : i.erase.nodes = i.nodes.map Node.erase := by
  cases i <;> simp [ForInit.nodes]

@[simp] theorem ForInit.rename_erase (f : Symbol → Symbol) (i : ForInit) :
    i.erase.rename f = (i.rename f).erase := by
  cases i <;> simp [ForInit.rename, Declaration.rename, Declaration.erase]

@[simp] theorem ForInit.align?_erase (i j : ForInit) : i.erase.align? j.erase = i.align? j := by
  cases i <;> cases j <;> simp [ForInit.align?, Alignment.list?_map Declarator.align?_erase]

@[simp] theorem optionNodes_erase (e : Option Expr) :
    optionNodes (e.map Expr.erase) = (optionNodes e).map Node.erase := by
  cases e <;> simp [optionNodes]

namespace ForHeader

@[simp] theorem nodes_erase (h : ForHeader) : h.erase.nodes = h.nodes.map Node.erase := by
  obtain ⟨id, init, cond, incr⟩ := h
  cases init <;> simp [nodes, erase]

@[simp] theorem rename_erase (f : Symbol → Symbol) (h : ForHeader) :
    h.erase.rename f = (h.rename f).erase := by
  simp [rename, erase, Function.comp_def]

@[simp] theorem unify?_erase (h k : ForHeader) : h.erase.unify? k.erase = h.unify? k := by
  simp [unify?, align?, Alignment.optional?_map ForInit.align?_erase,
    Alignment.optional?_map Expr.align?_erase]

end ForHeader

namespace Node

@[simp] theorem writes_erase (n : Node) : n.erase.writes = n.writes := by
  cases n <;> simp [writes]

@[simp] theorem mentions_erase (n : Node) : n.erase.mentions = n.mentions := by
  cases n <;> simp [mentions]

@[simp] theorem declares_erase (n : Node) : n.erase.declares = n.declares := by
  cases n <;> simp [declares]

@[simp] theorem escaping_erase (t : SymbolTable) (n : Node) :
    n.erase.escaping t.erase = n.escaping t := by
  cases n <;> simp [escaping]

end Node

namespace Stmt

theorem eraseAll_eq_map (ss : List Stmt) : eraseAll ss = ss.map erase := by
  induction ss with
  | nil => rfl
  | cons s ss ih => simp [ih]

@[simp] theorem site_erase (s : Stmt) : s.erase.site = s.site.erase := by
  cases s with
  | branch c t e s => cases e <;> rfl
  | _ => rfl

@[simp] theorem describe_erase (s : Stmt) : s.erase.describe = s.describe := by
  cases s with
  | branch c t e s => cases e <;> rfl
  | _ => rfl

@[simp] theorem forLoop?_erase (s : Stmt) : s.erase.forLoop? = s.forLoop?.map ForLoop.erase := by
  cases s with
  | branch c t e s => cases e <;> rfl
  | _ => rfl

@[simp] theorem statements_erase (s : Stmt) : s.erase.statements = eraseAll s.statements := by
  cases s with
  | branch c t e s => cases e <;> rfl
  | _ => rfl

@[simp] theorem isEmpty_erase (s : Stmt) : s.erase.isEmpty = s.isEmpty := by
  cases s with
  | branch c t e s => cases e <;> rfl
  | compound ss s => cases ss <;> rfl
  | _ => rfl

@[simp] theorem isSimple_erase (s : Stmt) : s.erase.isSimple = s.isSimple := by
  cases s with
  | branch c t e s => cases e <;> rfl
  | expr e s => cases e <;> rfl
  | _ => rfl

mutual

@[simp] theorem nodes_erase : ∀ s : Stmt, s.erase.nodes = s.nodes.map Node.erase
  | .decl ds _ => by simp [nodes, List.flatMap_map, List.map_flatMap]
  | .expr e _ => by simp [nodes]
  | .forLoop h b _ => by simp [nodes, nodes_erase b]
  | .compound ss _ => nodesOf_erase ss
  | .branch c t none _ => by simp [nodes, nodes_erase t]
  | .branch c t (some e) _ => by simp [nodes, nodes_erase t, nodes_erase e]
  | .ret e _ => by simp [nodes]
  | .whileLoop c b _ => by simp [nodes, nodes_erase b]
  | .doWhile b c _ => by simp [nodes, nodes_erase b]
  | .switch c b _ => by simp [nodes, nodes_erase b]
  | .caseLabel e _ => by simp [nodes]
  | .label _ b _ => nodes_erase b
  | .null _ | .defaultLabel _ | .break _ | .continue _ | .goto _ _ => rfl

theorem nodesOf_erase : ∀ ss : List Stmt, nodesOf (eraseAll ss) = (nodesOf ss).map Node.erase
  | [] => rfl
  | s :: ss => by simp [nodesOf, nodes_erase s, nodesOf_erase ss]

end

@[simp] theorem written_erase (s : Stmt) : s.erase.written = s.written := by
  simp [written, List.flatMap_map]

@[simp] theorem referenced_erase (s : Stmt) : s.erase.referenced = s.referenced := by
  simp [referenced, List.flatMap_map]

@[simp] theorem declared_erase (s : Stmt) : s.erase.declared = s.declared := by
  simp [declared, List.flatMap_map]

mutual

@[simp] theorem rename_erase (f : Symbol → Symbol) : ∀ s : Stmt,
    s.erase.rename f = (s.rename f).erase
  | .decl ds _ => by simp [rename]
  | .expr e _ => by simp [rename]
  | .forLoop h b _ => by simp [rename, rename_erase f b]
  | .compound ss _ => by simp [rename, renameAll_erase f ss]
  | .branch c t none _ => by simp [rename, rename_erase f t]
  | .branch c t (some e) _ => by simp [rename, rename_erase f t, rename_erase f e]
  | .ret e _ => by simp [rename, Function.comp_def]
  | .whileLoop c b _ => by simp [rename, rename_erase f b]
  | .doWhile b c _ => by simp [rename, rename_erase f b]
  | .switch c b _ => by simp [rename, rename_erase f b]
  | .caseLabel e _ => by simp [rename]
  | .label _ b _ => by simp [rename, rename_erase f b]
  | .null _ | .defaultLabel _ | .break _ | .continue _ | .goto _ _ => rfl

theorem renameAll_erase (f : Symbol → Symbol) : ∀ ss : List Stmt,
    renameAll f (eraseAll ss) = eraseAll (renameAll f ss)
  | [] => rfl
  | s :: ss => by simp [renameAll, rename_erase f s, renameAll_erase f ss]

end

mutual

theorem firstJump?_erase : ∀ s : Stmt, s.erase.firstJump? = s.firstJump?.map erase
  | .compound ss _ => firstJumpOf?_erase ss
  | .forLoop _ b _ => firstJump?_erase b
  | .branch _ t none _ => firstJump?_erase t
  | .branch _ t (some e) _ => by
    simp only [erase, firstJump?, firstJump?_erase t, firstJump?_erase e]
    cases t.firstJump? <;> rfl
  | .whileLoop _ b _ | .doWhile b _ _ | .switch _ b _ => firstJump?_erase b
  | .decl .. | .expr .. | .null _ | .ret .. | .caseLabel .. | .defaultLabel _ | .break _
  | .continue _ | .goto .. | .label .. => rfl

theorem firstJumpOf?_erase : ∀ ss : List Stmt,
    firstJumpOf? (eraseAll ss) = (firstJumpOf? ss).map erase
  | [] => rfl
  | s :: ss => by
    simp only [eraseAll, firstJumpOf?, firstJump?_erase s, firstJumpOf?_erase ss]
    cases s.firstJump? <;> rfl

end

mutual

theorem firstLoop?_erase : ∀ s : Stmt, s.erase.firstLoop? = s.firstLoop?.map ForLoop.erase
  | .compound ss _ => firstLoopOf?_erase ss
  | .branch _ t none _ => firstLoop?_erase t
  | .branch _ t (some e) _ => by
    simp only [erase, firstLoop?, firstLoop?_erase t, firstLoop?_erase e]
    cases t.firstLoop? <;> rfl
  | .whileLoop _ b _ | .doWhile b _ _ | .switch _ b _ | .label _ b _ => firstLoop?_erase b
  | .forLoop .. | .decl .. | .expr .. | .null _ | .ret .. | .caseLabel .. | .defaultLabel _
  | .break _ | .continue _ | .goto .. => rfl

theorem firstLoopOf?_erase : ∀ ss : List Stmt,
    firstLoopOf? (eraseAll ss) = (firstLoopOf? ss).map ForLoop.erase
  | [] => rfl
  | s :: ss => by
    simp only [eraseAll, firstLoopOf?, firstLoop?_erase s, firstLoopOf?_erase ss]
    cases s.firstLoop? <;> rfl

end

theorem nest_erase : ∀ s : Stmt, s.erase.nest = s.nest.map ForLoop.erase
  | .forLoop _ b _ => congrArg (List.cons _) (nest_erase b)
  | .compound [.forLoop _ b _] _ => congrArg (List.cons _) (nest_erase b)
  | .compound (_ :: _ :: _) _ => by simp [nest]
  | .compound [] _ | .compound [.decl ..] _ | .compound [.expr ..] _
  | .compound [.compound ..] _ | .compound [.null _] _ | .compound [.branch _ _ none _] _
  | .compound [.branch _ _ (some _) _] _ | .compound [.ret ..] _ | .compound [.whileLoop ..] _
  | .compound [.doWhile ..] _ | .compound [.switch ..] _ | .compound [.caseLabel ..] _
  | .compound [.defaultLabel _] _ | .compound [.break _] _ | .compound [.continue _] _
  | .compound [.goto ..] _ | .compound [.label ..] _ | .decl .. | .expr .. | .null _
  | .branch _ _ none _ | .branch _ _ (some _) _ | .ret .. | .whileLoop .. | .doWhile ..
  | .switch .. | .caseLabel .. | .defaultLabel _ | .break _ | .continue _ | .goto ..
  | .label .. => rfl

end Stmt

namespace ForLoop

@[simp] theorem stmt_erase (l : ForLoop) : l.erase.stmt = l.stmt.erase := rfl

@[simp] theorem nest_erase (l : ForLoop) : l.erase.nest = l.nest.map erase := by
  simp [nest, Stmt.nest_erase]

@[simp] theorem innermostBody_erase (l : ForLoop) :
    l.erase.innermostBody = l.innermostBody.erase := by
  rw [innermostBody, innermostBody, nest_erase, List.getLast?_map]
  cases l.nest.getLast? <;> rfl

@[simp] theorem bodyWrites_erase (l : ForLoop) (x : Symbol) :
    l.erase.bodyWrites x = l.bodyWrites x := by
  simp [bodyWrites]

theorem firstUnsupported?_erase (l : ForLoop) :
    l.erase.firstUnsupported? = l.firstUnsupported?.map Stmt.erase := by
  rw [firstUnsupported?, innermostBody_erase, Stmt.statements_erase, Stmt.eraseAll_eq_map]
  exact find?_map_of_keeps (fun s => by rw [Stmt.isSimple_erase]) _

theorem descend?_erase (l : ForLoop) (depth : Nat) :
    l.erase.descend? depth = (l.descend? depth).map erase := by
  induction depth generalizing l with
  | zero => rfl
  | succ depth ih =>
    simp only [descend?, erase_body, Stmt.firstLoop?_erase]
    cases l.body.firstLoop? with
    | none => rfl
    | some inner => exact ih inner

end ForLoop

namespace Selection

theorem eraseAll_append (ss ts : List Stmt) :
    Stmt.eraseAll (ss ++ ts) = Stmt.eraseAll ss ++ Stmt.eraseAll ts := by
  simp [Stmt.eraseAll_eq_map]

mutual

theorem loopsAt_erase (depth : Nat) : ∀ (before after : List Stmt) (s : Stmt),
    loopsAt depth (Stmt.eraseAll before) (Stmt.eraseAll after) s.erase =
      (loopsAt depth before after s).map erase
  | before, after, .forLoop h b s => by
    have hb := loopsAt_erase (depth + 1) [] [] b
    simp only [Stmt.eraseAll] at hb
    simp [loopsAt, hb, erase]
  | _, _, .compound ss _ => loopsOf_erase depth [] ss
  | _, _, .branch _ t none _ => loopsAt_erase depth [] [] t
  | _, _, .branch _ t (some e) _ => by
    have ht := loopsAt_erase depth [] [] t
    have he := loopsAt_erase depth [] [] e
    simp only [Stmt.eraseAll] at ht he
    simp [loopsAt, ht, he]
  | _, _, .whileLoop _ b _ | _, _, .doWhile b _ _ | _, _, .switch _ b _ | _, _, .label _ b _ =>
    loopsAt_erase depth [] [] b
  | _, _, .decl .. | _, _, .expr .. | _, _, .null _ | _, _, .ret .. | _, _, .caseLabel ..
  | _, _, .defaultLabel _ | _, _, .break _ | _, _, .continue _ | _, _, .goto .. => rfl

theorem loopsOf_erase (depth : Nat) : ∀ (before ss : List Stmt),
    loopsOf depth (Stmt.eraseAll before) (Stmt.eraseAll ss) = (loopsOf depth before ss).map erase
  | _, [] => rfl
  | before, s :: ss => by
    have hs := loopsOf_erase depth (before ++ [s]) ss
    rw [eraseAll_append] at hs
    simp only [Stmt.eraseAll] at hs
    simp [loopsOf, loopsAt_erase depth before ss s, hs]

end

@[simp] theorem all_erase (f : Function) : all f.erase = (all f).map erase := by
  rw [all, all, Function.statements, Function.erase_body, Stmt.statements_erase]
  exact loopsOf_erase 0 [] f.body.statements

end Selection

end LoopLegality

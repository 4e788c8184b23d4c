import LoopLegality.Effect
import LoopLegality.Proofs.Whitelist
import LoopLegality.Rename

namespace LoopLegality

theorem ascending_eq_iff {ms ns : List Nat} :
    ascending ms = ascending ns ↔ ∀ n, n ∈ ms ↔ n ∈ ns := by
  constructor
  · intro h n
    rw [← mem_ascending, h, mem_ascending]
  · intro h
    refine (sorted_ascending ms).eq_of_mem_iff (sorted_ascending ns) fun {n} => ?_
    rw [mem_ascending, mem_ascending, h]

def Node.rename (f : Symbol → Symbol) : Node → Node
  | declarator d => declarator (d.rename f)
  | expr e => expr (e.rename f)

section Nodes

variable (f : Symbol → Symbol)

namespace Expr

mutual

theorem nodes_rename : ∀ e : Expr, (e.rename f).nodes = e.nodes.map (rename f)
  | field o m a s => by simp [rename, nodes, nodes_rename o]
  | subscript b i s => by simp [rename, nodes, nodes_rename b, nodes_rename i]
  | call g as s => by simp [rename, nodes, nodes_rename g, nodesOf_rename as]
  | unary op e s => by simp [rename, nodes, nodes_rename e]
  | binary op l r s => by simp [rename, nodes, nodes_rename l, nodes_rename r]
  | assign op l r s => by simp [rename, nodes, nodes_rename l, nodes_rename r]
  | conditional c t e s => by
    simp [rename, nodes, nodes_rename c, nodes_rename t, nodes_rename e]
  | cast t e s => by simp [rename, nodes, nodes_rename e]
  | sizeOf e s => by simp [rename, nodes, nodes_rename e]
  | comma es s => by simp [rename, nodes, nodesOf_rename es]
  | ident .. | int .. | float .. | str .. | char .. | sizeOfType .. => by simp [rename, nodes]

theorem nodesOf_rename : ∀ es : List Expr,
    nodesOf (renameAll f es) = (nodesOf es).map (rename f)
  | [] => rfl
  | e :: es => by simp [renameAll, nodesOf, nodes_rename e, nodesOf_rename es]

end

theorem occurrences_rename (e : Expr) :
    (e.rename f).occurrences = e.occurrences.map (Node.rename f) := by
  rw [occurrences, occurrences, nodes_rename, List.map_map, List.map_map]
  rfl

end Expr

namespace Initializer

mutual

theorem exprs_rename : ∀ i : Initializer, (i.rename f).exprs = i.exprs.map (Expr.rename f)
  | expr e => rfl
  | list is => by simp [rename, exprs, exprsOf_rename is]

theorem exprsOf_rename : ∀ is : List Initializer,
    exprsOf (renameAll f is) = (exprsOf is).map (Expr.rename f)
  | [] => rfl
  | i :: is => by simp [renameAll, exprsOf, exprs_rename i, exprsOf_rename is]

end

end Initializer

theorem flatMap_nodes_rename {α : Type} {r : α → α} {nodes : α → List Node}
    (h : ∀ a, nodes (r a) = (nodes a).map (Node.rename f)) (as : List α) :
    (as.map r).flatMap nodes = (as.flatMap nodes).map (Node.rename f) := by
  rw [List.flatMap_map, List.map_flatMap]
  simp only [h]

theorem option_nodes_rename {α : Type} {r : α → α} {nodes : α → List Node}
    (h : ∀ a, nodes (r a) = (nodes a).map (Node.rename f)) (o : Option α) :
    ((o.map r).map nodes).getD [] = ((o.map nodes).getD []).map (Node.rename f) := by
  cases o with
  | none => rfl
  | some a => exact h a

namespace Declarator

theorem exprs_rename (d : Declarator) : (d.rename f).exprs = d.exprs.map (Expr.rename f) := by
  have hdims : (d.dims.map (·.map (Expr.rename f))).filterMap id =
      (d.dims.filterMap id).map (Expr.rename f) := by
    rw [List.filterMap_map, List.map_filterMap]
    rfl
  have hinit : ((d.init.map (Initializer.rename f)).map Initializer.exprs).getD [] =
      ((d.init.map Initializer.exprs).getD []).map (Expr.rename f) := by
    cases d.init with
    | none => rfl
    | some i => exact Initializer.exprs_rename f i
  rw [exprs, exprs, List.map_append, ← hdims, ← hinit]
  rfl

theorem nodes_rename (d : Declarator) :
    (d.rename f).nodes = d.nodes.map (Node.rename f) := by
  rw [nodes, nodes, exprs_rename, flatMap_nodes_rename f (Expr.occurrences_rename f)]
  rfl

end Declarator

theorem ForInit.nodes_rename (i : ForInit) :
    (i.rename f).nodes = i.nodes.map (Node.rename f) := by
  cases i with
  | decl d => exact flatMap_nodes_rename f (Declarator.nodes_rename f) d.declarators
  | expr e s => exact e.occurrences_rename f
  | null s => rfl

theorem optionNodes_rename (e : Option Expr) :
    optionNodes (e.map (Expr.rename f)) = (optionNodes e).map (Node.rename f) :=
  option_nodes_rename f (Expr.occurrences_rename f) e

theorem ForHeader.nodes_rename (h : ForHeader) :
    (h.rename f).nodes = h.nodes.map (Node.rename f) := by
  rw [nodes, nodes, List.map_append, List.map_append, ← optionNodes_rename, ← optionNodes_rename,
    ← option_nodes_rename f (ForInit.nodes_rename f)]
  rfl

namespace Stmt

mutual

/-- Renaming visits each place that mentions a binding. -/
theorem nodes_rename : ∀ s : Stmt, (s.rename f).nodes = s.nodes.map (Node.rename f)
  | .decl ds s => flatMap_nodes_rename f (Declarator.nodes_rename f) ds
  | .expr e s => e.occurrences_rename f
  | .forLoop h b s => by simp [rename, nodes, h.nodes_rename, nodes_rename b]
  | .compound ss s => by simp [rename, nodes, nodesOf_rename ss]
  | .branch c t none s => by simp [rename, nodes, c.occurrences_rename, nodes_rename t]
  | .branch c t (some e) s => by
    simp [rename, nodes, c.occurrences_rename, nodes_rename t, nodes_rename e]
  | .ret e s => optionNodes_rename f e
  | .whileLoop c b s => by simp [rename, nodes, c.occurrences_rename, nodes_rename b]
  | .doWhile b c s => by simp [rename, nodes, c.occurrences_rename, nodes_rename b]
  | .switch c b s => by simp [rename, nodes, c.occurrences_rename, nodes_rename b]
  | .caseLabel e s => e.occurrences_rename f
  | .label n b s => by simp [rename, nodes, nodes_rename b]
  | .null _ | .defaultLabel _ | .break _ | .continue _ | .goto .. => rfl

theorem nodesOf_rename : ∀ ss : List Stmt,
    nodesOf (renameAll f ss) = (nodesOf ss).map (Node.rename f)
  | [] => rfl
  | s :: ss => by simp [renameAll, nodesOf, nodes_rename s, nodesOf_rename ss]

end

end Stmt

end Nodes

namespace Node

def names : Node → List Symbol
  | declarator d => [d.symbol]
  | expr (.ident x _) => [x]
  | expr _ => []

def members : Node → List Symbol
  | expr (.field _ m _ _) => [m]
  | _ => []

theorem mentions_eq (n : Node) : n.mentions = n.names ++ n.members := by
  cases n with
  | declarator d => rfl
  | expr e => cases e <;> rfl

variable (f : Symbol → Symbol)

theorem names_rename (n : Node) : (n.rename f).names = n.names.map f := by
  cases n with
  | declarator d => rfl
  | expr e => cases e <;> rfl

theorem members_rename (n : Node) : (n.rename f).members = n.members := by
  cases n with
  | declarator d => rfl
  | expr e => cases e <;> rfl

end Node

namespace Stmt

def names (s : Stmt) : List Symbol := s.nodes.flatMap Node.names

def members (s : Stmt) : List Symbol := s.nodes.flatMap Node.members

variable (f : Symbol → Symbol) (s : Stmt)

theorem referenced_eq : s.referenced = ascending (s.names ++ s.members) := by
  rw [referenced, ascending_eq_iff]
  intro x
  simp only [names, members, List.mem_append, List.mem_flatMap, Node.mentions_eq]
  constructor
  · rintro ⟨n, hn, hx | hx⟩
    · exact .inl ⟨n, hn, hx⟩
    · exact .inr ⟨n, hn, hx⟩
  · rintro (⟨n, hn, hx⟩ | ⟨n, hn, hx⟩)
    · exact ⟨n, hn, .inl hx⟩
    · exact ⟨n, hn, .inr hx⟩

theorem names_rename : (s.rename f).names = s.names.map f := by
  rw [names, names, nodes_rename, List.flatMap_map, List.map_flatMap]
  simp only [Node.names_rename]

theorem members_rename : (s.rename f).members = s.members := by
  rw [members, members, nodes_rename, List.flatMap_map]
  simp only [Node.members_rename]

/-- Renaming replaces every use and every declaration of a variable and leaves the members alone.
So what a renamed statement refers to is the image of what it referred to exactly if each member
has its image, and is the image of something, in spite of that. -/
theorem referenced_rename_iff :
    (s.rename f).names = s.names.map f ∧ (s.rename f).members = s.members ∧
    (s.rename f).referenced = ascending (s.names.map f ++ s.members) ∧
    ((s.rename f).referenced = ascending (s.referenced.map f) ↔
      ∀ m ∈ s.members, (f m ∈ s.names.map f ∨ f m ∈ s.members) ∧
        (m ∈ s.names.map f ∨ m ∈ s.members.map f)) := by
  have hrenamed : (s.rename f).referenced = ascending (s.names.map f ++ s.members) := by
    rw [referenced_eq, names_rename, members_rename]
  have himage : ascending (s.referenced.map f) =
      ascending (s.names.map f ++ s.members.map f) := by
    rw [ascending_eq_iff, ← List.map_append]
    intro x
    simp only [List.mem_map, referenced_eq, mem_ascending]
  refine ⟨names_rename f s, members_rename f s, hrenamed, ?_⟩
  rw [hrenamed, himage, ascending_eq_iff]
  simp only [List.mem_append]
  constructor
  · intro h m hm
    exact ⟨(h (f m)).mpr (.inr (List.mem_map_of_mem hm)), (h m).mp (.inr hm)⟩
  · intro h x
    constructor
    · rintro (hx | hx)
      · exact .inl hx
      · exact (h x hx).2
    · rintro (hx | hx)
      · exact .inl hx
      · obtain ⟨m, hm, rfl⟩ := List.mem_map.mp hx
        exact (h m hm).1

namespace MovedMember

/-- `q.y = 1;` -/
def stmt : Stmt :=
  .expr (.assign .plain (.field (.ident 2 .none) 4 false .none) (.int 1 .none) .none) ⟨.none, []⟩

def toFirst : Symbol → Symbol
  | 2 => 1
  | 4 => 3
  | x => x

end MovedMember

open MovedMember in
/-- The member is left behind. -/
theorem referenced_rename_movedMember :
    (stmt.rename toFirst).referenced = [1, 4] ∧ ascending (stmt.referenced.map toFirst) = [1, 3] ∧
      (stmt.rename toFirst).referenced ≠ ascending (stmt.referenced.map toFirst) := by
  obtain ⟨-, -, hreferenced, hiff⟩ := referenced_rename_iff toFirst stmt
  refine ⟨hreferenced, by decide, fun h => ?_⟩
  exact absurd (hiff.mp h 4 (by decide)).1 (by decide)

end Stmt

end LoopLegality

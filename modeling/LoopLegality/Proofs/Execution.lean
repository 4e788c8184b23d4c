import LoopLegality.Expr.Value
import LoopLegality.Occurrence
import Mathlib.Logic.Function.Basic
import Mathlib.Logic.Relation

namespace LoopLegality

/-- The values of the variables. Elements of arrays and members of structures are not among
them: a read of one may give any number. -/
abbrev Values := Symbol → Int

abbrev Evaluation := Values → Int → Values → Prop

def Evaluation.both (p q : Evaluation) (σ : Values) (a b : Int) (σ' : Values) : Prop :=
  (∃ τ, p σ a τ ∧ q τ b σ') ∨ ∃ τ, q σ b τ ∧ p τ a σ'

def BinaryOp.isLogical : BinaryOp → Bool
  | and | or => true
  | _ => false

def AssignOp.result? (op : AssignOp) (old new : Int) : Option Int :=
  match op with
  | plain => some new
  | compound op => op.result? old new

def UnaryOp.change? : UnaryOp → Option Int
  | preIncr | postIncr => some 1
  | preDecr | postDecr => some (-1)
  | _ => none

def UnaryOp.isPostfix : UnaryOp → Bool
  | postIncr | postDecr => true
  | _ => false

namespace Expr

/-- A number is written to a place. Other expressions are no places. -/
def Stores : Expr → Values → Int → Values → Prop
  | .ident x _, σ, n, σ' => σ' = Function.update σ x n
  | .subscript .., σ, _, σ' | .field .., σ, _, σ' => σ' = σ
  | _, _, _, _ => False

mutual

/-- Evaluation, with the operands of an operator in either order unless the language fixes it.
Operators give what they give on constants, and where that is nothing there is no evaluation.
Nor is there one of calls, of addresses and through pointers. -/
def Yields : Expr → Values → Int → Values → Prop
  | .int n _, σ, m, σ' => m = n ∧ σ' = σ
  | .char text _, σ, m, σ' => charValue? text.toList = some m ∧ σ' = σ
  | .float .., σ, _, σ' | .str .., σ, _, σ' => σ' = σ
  | .sizeOfType _, σ, _, σ' | .sizeOf .., σ, _, σ' => σ' = σ
  | .ident x _, σ, m, σ' => m = σ x ∧ σ' = σ
  | .field o _ _ _, σ, _, σ' => ∃ a, o.Yields σ a σ'
  | .subscript b i _, σ, _, σ' => ∃ a k, Evaluation.both b.Yields i.Yields σ a k σ'
  | .call .., _, _, _ => False
  | .unary op e _, σ, m, σ' => match op.change? with
    | some d => ∃ old new τ, e.Yields σ old τ ∧ Word.add? old d = some new ∧ e.Stores τ new σ' ∧
        m = if op.isPostfix then old else new
    | none => ∃ a, e.Yields σ a σ' ∧ op.result? a = some m
  | .binary op l r _, σ, m, σ' =>
    (∃ a, l.Yields σ a σ' ∧ op.settled? a = some m) ∨
      ∃ a b, op.settled? a = none ∧ op.result? a b = some m ∧
        if op.isLogical then ∃ τ, l.Yields σ a τ ∧ r.Yields τ b σ'
        else Evaluation.both l.Yields r.Yields σ a b σ'
  | .assign op l r _, σ, m, σ' => ∃ old new τ, Evaluation.both l.Yields r.Yields σ old new τ ∧
      op.result? old new = some m ∧ l.Stores τ m σ'
  | .conditional c t f _, σ, m, σ' => ∃ a τ, c.Yields σ a τ ∧
      if a = 0 then f.Yields τ m σ' else t.Yields τ m σ'
  | .cast _ e _, σ, m, σ' => e.Yields σ m σ'
  | .comma es _, σ, m, σ' => YieldsLast es σ m σ'

def YieldsLast : List Expr → Values → Int → Values → Prop
  | [], _, _, _ => False
  | e :: es, σ, m, σ' =>
    es = [] ∧ e.Yields σ m σ' ∨ ∃ a τ, e.Yields σ a τ ∧ YieldsLast es τ m σ'

end

def Run : List Expr → Values → Values → Prop
  | [], σ, σ' => σ' = σ
  | e :: es, σ, σ' => ∃ a τ, e.Yields σ a τ ∧ Run es τ σ'

end Expr

/-- The dimensions are evaluated and the object gets its first value, which may be any if there
is no initializer or a list of them. Pointers and variables that outlive their block are not
followed. -/
def Declarator.Runs (d : Declarator) (σ σ' : Values) : Prop :=
  d.pointer = false ∧ (d.dims = [] → d.storage = .automatic) ∧
    ∃ τ, Expr.Run (d.dims.filterMap id) σ τ ∧
      match d.init with
      | some (.expr e) => ∃ n τ', e.Yields τ n τ' ∧ σ' = Function.update τ' d.symbol n
      | some (.list is) => ∃ n τ', Expr.Run (Initializer.list is).exprs τ τ' ∧
          σ' = Function.update τ' d.symbol n
      | none => ∃ n, σ' = Function.update τ d.symbol n

def Declarator.RunAll : List Declarator → Values → Values → Prop
  | [], σ, σ' => σ' = σ
  | d :: ds, σ, σ' => ∃ τ, d.Runs σ τ ∧ RunAll ds τ σ'

def ForInit.Runs : ForInit → Values → Values → Prop
  | .decl d, σ, σ' => Declarator.RunAll d.declarators σ σ'
  | .expr e _, σ, σ' => ∃ n, e.Yields σ n σ'
  | .null _, σ, σ' => σ' = σ

inductive Signal where
  | done | broke | continued | returned
deriving DecidableEq, Repr

abbrev Behaviour := Values → Signal → Values → Prop

def Signal.goesOn : Signal → Bool
  | done | continued => true
  | broke | returned => false

def Enters (init : Option ForInit) (σ σ' : Values) : Prop :=
  match init with
  | some i => i.Runs σ σ'
  | none => σ' = σ

/-- The condition of a loop is tested, with this outcome. A missing one holds. -/
def Tests (cond : Option Expr) (outcome : Bool) (σ σ' : Values) : Prop :=
  match cond with
  | some c => ∃ n, c.Yields σ n σ' ∧ outcome = (n != 0)
  | none => outcome = true ∧ σ' = σ

def Steps (incr : Option Expr) (σ σ' : Values) : Prop :=
  match incr with
  | some e => ∃ n, e.Yields σ n σ'
  | none => σ' = σ

/-- Complete iterations of a loop. For each of them the values are listed that its test found
and that its body left. -/
inductive Iterates (cond incr : Option Expr) (body : Behaviour) (σ₀ : Values) :
    List (Values × Values) → Values → Prop
  | start : Iterates cond incr body σ₀ [] σ₀
  | next {runs σ σ₁ σ₂ σ₃ g} (h : Iterates cond incr body σ₀ runs σ)
      (htest : Tests cond true σ σ₁) (hbody : body σ₁ g σ₂) (hg : g.goesOn = true)
      (hstep : Steps incr σ₂ σ₃) : Iterates cond incr body σ₀ (runs ++ [(σ, σ₂)]) σ₃

def Loops (cond incr : Option Expr) (body : Behaviour) : Behaviour := fun σ g σ' =>
  ∃ runs τ, Iterates cond incr body σ runs τ ∧
    (Tests cond false τ σ' ∧ g = .done ∨
      ∃ υ, Tests cond true τ υ ∧
        (body υ .broke σ' ∧ g = .done ∨ body υ .returned σ' ∧ g = .returned))

namespace Stmt

mutual

/-- A run of a statement, from the values before it to those after it. There is none of switches,
labels and jumps to them. -/
def Runs : Stmt → Values → Signal → Values → Prop
  | .null _, σ, g, σ' => g = .done ∧ σ' = σ
  | .decl ds _, σ, g, σ' => g = .done ∧ Declarator.RunAll ds σ σ'
  | .expr e _, σ, g, σ' => g = .done ∧ ∃ n, e.Yields σ n σ'
  | .compound ss _, σ, g, σ' => RunAll ss σ g σ'
  | .branch c t none _, σ, g, σ' => ∃ n τ, c.Yields σ n τ ∧
      if n = 0 then g = .done ∧ σ' = τ else t.Runs τ g σ'
  | .branch c t (some e) _, σ, g, σ' => ∃ n τ, c.Yields σ n τ ∧
      if n = 0 then e.Runs τ g σ' else t.Runs τ g σ'
  | .forLoop h b _, σ, g, σ' => ∃ τ, Enters h.init σ τ ∧ Loops h.cond h.incr b.Runs τ g σ'
  | .whileLoop c b _, σ, g, σ' => Loops (some c) none b.Runs σ g σ'
  | .doWhile b c _, σ, g, σ' =>
    (∃ e τ, b.Runs σ e τ ∧ e.goesOn = true ∧ Loops (some c) none b.Runs τ g σ') ∨
      b.Runs σ .broke σ' ∧ g = .done ∨ b.Runs σ .returned σ' ∧ g = .returned
  | .ret none _, σ, g, σ' => g = .returned ∧ σ' = σ
  | .ret (some e) _, σ, g, σ' => g = .returned ∧ ∃ n, e.Yields σ n σ'
  | .break _, σ, g, σ' => g = .broke ∧ σ' = σ
  | .continue _, σ, g, σ' => g = .continued ∧ σ' = σ
  | .switch .., _, _, _ | .caseLabel .., _, _, _ | .defaultLabel _, _, _, _ => False
  | .goto .., _, _, _ | .label .., _, _, _ => False

def RunAll : List Stmt → Values → Signal → Values → Prop
  | [], σ, g, σ' => g = .done ∧ σ' = σ
  | s :: ss, σ, g, σ' =>
    (∃ τ, s.Runs σ .done τ ∧ RunAll ss τ g σ') ∨ g ≠ .done ∧ s.Runs σ g σ'

end

end Stmt

/-- A loop whose body is running, and for each iteration up to now the values that its test found
and that its body has reached. -/
structure Visit where
  loop : ForLoop
  runs : List (Values × Values)

namespace Stmt

variable (run : Stmt → Behaviour)

def Turns (c : Expr) (s : Site) (b : Stmt) (σ σ' : Values) : Prop :=
  ∃ τ g, run (.expr c s) σ .done τ ∧ run b τ g σ' ∧ g.goesOn = true

mutual

/-- At some point of a run, which need not end, the body of a loop starts. The visits are to the
loops around that point, outermost first, and the last is to the loop itself. What other statements
do is a parameter. Outside the headers of counting loops conditions are evaluated, but either
outcome is taken. -/
def Starts : Stmt → Values → List Visit → Values → Prop
  | .compound ss _, σ, vs, ρ => StartsIn ss σ vs ρ
  | .branch c t none s, σ, vs, ρ => ∃ τ, run (.expr c s) σ .done τ ∧ t.Starts τ vs ρ
  | .branch c t (some e) s, σ, vs, ρ => ∃ τ, run (.expr c s) σ .done τ ∧
      (t.Starts τ vs ρ ∨ e.Starts τ vs ρ)
  | .forLoop h b s, σ, vs, ρ => ∃ σ₀ runs σ₁ σ₂, Enters h.init σ σ₀ ∧
      Iterates h.cond h.incr (run b) σ₀ runs σ₁ ∧ Tests h.cond true σ₁ σ₂ ∧
      ∃ inner, vs = ⟨⟨h, b, s⟩, runs ++ [(σ₁, ρ)]⟩ :: inner ∧
        (inner = [] ∧ ρ = σ₂ ∨ b.Starts σ₂ inner ρ)
  | .whileLoop c b s, σ, vs, ρ => ∃ σ₁ σ₂, Relation.ReflTransGen (Turns run c s b) σ σ₁ ∧
      run (.expr c s) σ₁ .done σ₂ ∧ b.Starts σ₂ vs ρ
  | .doWhile b c s, σ, vs, ρ => b.Starts σ vs ρ ∨
      ∃ g τ σ₁ σ₂, run b σ g τ ∧ g.goesOn = true ∧
        Relation.ReflTransGen (Turns run c s b) τ σ₁ ∧ run (.expr c s) σ₁ .done σ₂ ∧
        b.Starts σ₂ vs ρ
  | _, _, _, _ => False

def StartsIn : List Stmt → Values → List Visit → Values → Prop
  | [], _, _, _ => False
  | s :: ss, σ, vs, ρ => s.Starts σ vs ρ ∨ ∃ τ, run s σ .done τ ∧ StartsIn ss τ vs ρ

end

end Stmt

end LoopLegality

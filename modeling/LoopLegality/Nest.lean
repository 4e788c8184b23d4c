import LoopLegality.Stmt

namespace LoopLegality

/-- The loops of the perfect nest that a body opens, outermost first: each is the only
statement of the body around it. -/
def Stmt.nest : Stmt → List ForLoop
  | .forLoop h b s => ⟨h, b, s⟩ :: b.nest
  | .compound [.forLoop h b s] _ => ⟨h, b, s⟩ :: b.nest
  | _ => []

namespace ForLoop

def nest (l : ForLoop) : List ForLoop := l :: l.body.nest

def innermostBody (l : ForLoop) : Stmt := (l.nest.getLast?.getD l).body

end ForLoop

namespace Stmt

def isSimple : Stmt → Bool
  | null _ | decl .. | forLoop .. => true
  | expr (.assign ..) _ => true
  | expr (.unary op _ _) _ => op.isIncrement
  | _ => false

mutual

/-- The first statement that leaves the iteration it stands in. -/
def firstJump? : Stmt → Option Stmt
  | s@(.break _) | s@(.continue _) | s@(goto ..) | s@(ret ..) | s@(label ..) => some s
  | compound ss _ => firstJumpOf? ss
  | forLoop _ b _ => b.firstJump?
  | branch _ t none _ => t.firstJump?
  | branch _ t (some e) _ => match t.firstJump? with
    | some s => some s
    | none => e.firstJump?
  | whileLoop _ b _ | doWhile b _ _ | switch _ b _ => b.firstJump?
  | _ => none

def firstJumpOf? : List Stmt → Option Stmt
  | [] => none
  | s :: ss => match s.firstJump? with
    | some j => some j
    | none => firstJumpOf? ss

end

mutual

def firstLoop? : Stmt → Option ForLoop
  | forLoop h b s => some ⟨h, b, s⟩
  | compound ss _ => firstLoopOf? ss
  | branch _ t none _ => t.firstLoop?
  | branch _ t (some e) _ => match t.firstLoop? with
    | some l => some l
    | none => e.firstLoop?
  | whileLoop _ b _ | doWhile b _ _ | switch _ b _ | label _ b _ => b.firstLoop?
  | _ => none

def firstLoopOf? : List Stmt → Option ForLoop
  | [] => none
  | s :: ss => match s.firstLoop? with
    | some l => some l
    | none => firstLoopOf? ss

end

end Stmt

def ForLoop.firstUnsupported? (l : ForLoop) : Option Stmt :=
  l.innermostBody.statements.find? (!·.isSimple)

/-- The loop reached by going into the first loop of each body `depth` times. -/
def ForLoop.descend? (l : ForLoop) : Nat → Option ForLoop
  | 0 => some l
  | depth + 1 => match l.body.firstLoop? with
    | some inner => inner.descend? depth
    | none => none

/-- A statement among its siblings, inside `depth` loops. -/
structure Selection where
  before : List Stmt
  stmt : Stmt
  after : List Stmt
  depth : Nat
deriving Inhabited

namespace Selection

def siblings (s : Selection) : List Stmt := s.before ++ s.stmt :: s.after

def index (s : Selection) : Nat := s.before.length

def next? (s : Selection) : Option Stmt := s.after.head?

mutual

def loopsAt (depth : Nat) (before after : List Stmt) : Stmt → List Selection
  | .forLoop h b s => ⟨before, .forLoop h b s, after, depth⟩ :: loopsAt (depth + 1) [] [] b
  | .compound ss _ => loopsOf depth [] ss
  | .branch _ t none _ => loopsAt depth [] [] t
  | .branch _ t (some e) _ => loopsAt depth [] [] t ++ loopsAt depth [] [] e
  | .whileLoop _ b _ | .doWhile b _ _ | .switch _ b _ | .label _ b _ => loopsAt depth [] [] b
  | _ => []

def loopsOf (depth : Nat) (before : List Stmt) : List Stmt → List Selection
  | [] => []
  | s :: ss => loopsAt depth before ss s ++ loopsOf depth (before ++ [s]) ss

end

def all (f : Function) : List Selection := loopsOf 0 [] f.statements

def outermost (f : Function) : List Selection := (all f).filter (·.depth == 0)

end Selection

end LoopLegality

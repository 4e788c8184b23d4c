import LoopLegality.Expr
import LoopLegality.IndexMap

namespace LoopLegality

abbrev ConstEnv := IndexMap Int

def truth (b : Bool) : Int := if b then 1 else 0

def BinaryOp.result? (op : BinaryOp) (l r : Int) : Option Int :=
  match op with
  | add => Word.add? l r
  | sub => Word.sub? l r
  | mul => Word.mul? l r
  | div => Word.div? l r
  | mod => Word.rem? l r
  | shl => Word.shiftLeft? l r
  | shr => Word.shiftRight? l r
  | bitAnd => some (Word.land l r)
  | bitOr => some (Word.lor l r)
  | bitXor => some (Word.lxor l r)
  | eq => some (truth (l == r))
  | ne => some (truth (l != r))
  | lt => some (truth (l < r))
  | le => some (truth (l ≤ r))
  | gt => some (truth (l > r))
  | ge => some (truth (l ≥ r))
  | and => some (truth (l != 0 && r != 0))
  | or => some (truth (l != 0 || r != 0))

def UnaryOp.result? (op : UnaryOp) (n : Int) : Option Int :=
  match op with
  | plus => some n
  | neg => Word.neg? n
  | not => some (truth (n == 0))
  | complement => some (Word.complement n)
  | _ => none

def charValue? (text : List Char) : Option Int :=
  match text with
  | [] => none
  | [c] => some c.toNat
  | '\\' :: 'n' :: _ => some 10
  | '\\' :: 't' :: _ => some 9
  | '\\' :: '0' :: _ => some 0
  | '\\' :: c :: _ => some c.toNat
  | _ => none

/-- The left operand alone settles a conjunction or a disjunction. -/
def BinaryOp.settled? (op : BinaryOp) (l : Int) : Option Int :=
  match op with
  | and => if l = 0 then some 0 else none
  | or => if l = 0 then none else some 1
  | _ => none

def Expr.eval? (env : ConstEnv) : Expr → Option Int
  | .int n _ => some n
  | .char text _ => charValue? text.toList
  | .ident x _ => env.get? x
  | .unary op e _ => do op.result? (← e.eval? env)
  | .binary op l r _ => do
    let a ← l.eval? env
    match op.settled? a with
    | some n => return n
    | none => op.result? a (← r.eval? env)
  | .conditional c t f _ => do
    if (← c.eval? env) = 0 then f.eval? env else t.eval? env
  | .cast _ e _ => e.eval? env
  | _ => none

end LoopLegality

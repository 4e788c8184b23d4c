namespace LoopLegality

inductive UnaryOp where
  | plus | neg | not | complement | addressOf | deref
  | preIncr | preDecr | postIncr | postDecr
deriving DecidableEq, Inhabited, Repr

namespace UnaryOp

def spelling : UnaryOp → String
  | plus => "+" | neg => "-" | not => "!" | complement => "~" | addressOf => "&"
  | deref => "*" | preIncr | postIncr => "++" | preDecr | postDecr => "--"

def isIncrement : UnaryOp → Bool
  | preIncr | preDecr | postIncr | postDecr => true
  | _ => false

end UnaryOp

inductive BinaryOp where
  | add | sub | mul | div | mod | shl | shr | bitAnd | bitOr | bitXor
  | eq | ne | lt | le | gt | ge | and | or
deriving DecidableEq, Inhabited, Repr

def BinaryOp.spelling : BinaryOp → String
  | add => "+" | sub => "-" | mul => "*" | div => "/" | mod => "%" | shl => "<<" | shr => ">>"
  | bitAnd => "&" | bitOr => "|" | bitXor => "^" | eq => "==" | ne => "!=" | lt => "<"
  | le => "<=" | gt => ">" | ge => ">=" | and => "&&" | or => "||"

inductive AssignOp where
  | plain
  | compound (op : BinaryOp)
deriving DecidableEq, Inhabited, Repr

def AssignOp.spelling : AssignOp → String
  | plain => "="
  | compound op => op.spelling ++ "="

end LoopLegality

import LoopLegality.Expr
import LoopLegality.Grammar.Parser
import LoopLegality.Token.Literal

namespace LoopLegality.Grammar

def binaryOp? : Nat → Token.Kind → Option BinaryOp
  | 0, .punct .pipePipe => some .or
  | 1, .punct .ampAmp => some .and
  | 2, .punct .pipe => some .bitOr
  | 3, .punct .caret => some .bitXor
  | 4, .punct .amp => some .bitAnd
  | 5, .punct .equalEqual => some .eq
  | 5, .punct .bangEqual => some .ne
  | 6, .punct .less => some .lt
  | 6, .punct .lessEqual => some .le
  | 6, .punct .greater => some .gt
  | 6, .punct .greaterEqual => some .ge
  | 7, .punct .shiftLeft => some .shl
  | 7, .punct .shiftRight => some .shr
  | 8, .punct .plus => some .add
  | 8, .punct .minus => some .sub
  | 9, .punct .star => some .mul
  | 9, .punct .slash => some .div
  | 9, .punct .percent => some .mod
  | _, _ => none

def binaryLevels : Nat := 10

def assignOp? : Token.Kind → Option AssignOp
  | .punct .assign => some .plain
  | .punct .plusAssign => some (.compound .add)
  | .punct .minusAssign => some (.compound .sub)
  | .punct .starAssign => some (.compound .mul)
  | .punct .slashAssign => some (.compound .div)
  | .punct .percentAssign => some (.compound .mod)
  | .punct .ampAssign => some (.compound .bitAnd)
  | .punct .pipeAssign => some (.compound .bitOr)
  | .punct .caretAssign => some (.compound .bitXor)
  | .punct .shiftLeftAssign => some (.compound .shl)
  | .punct .shiftRightAssign => some (.compound .shr)
  | _ => none

def prefixOp? : Token.Kind → Option UnaryOp
  | .punct .minus => some .neg
  | .punct .plus => some .plus
  | .punct .bang => some .not
  | .punct .tilde => some .complement
  | .punct .amp => some .addressOf
  | .punct .star => some .deref
  | .punct .plusPlus => some .preIncr
  | .punct .minusMinus => some .preDecr
  | _ => none

/-- The forms of an expression, each reading the next one for its operands. -/
inductive Form where
  | sequence
  | assignment
  | conditional
  | binary (level : Nat)
  | unary
deriving DecidableEq, Repr

/-- Skips a text in braces from its opening brace on. `depth` braces are open. -/
def skipBraces : Nat → Nat → Parser Unit
  | 0, _ => return ()
  | n + 1, depth => do
    let depth ← match ← currentKind with
      | .punct .leftBrace => pure (depth + 1)
      | .punct .rightBrace => pure (depth - 1)
      | .eof => fail .openStructBody
      | _ => pure depth
    advance
    if depth = 0 then return () else skipBraces n depth

def lexemeAndAdvance : Parser String := do
  let t ← current
  advance
  return t.lexeme

def structTag : Parser (List String) := do
  if ← check .identifier then return [← lexemeAndAdvance] else return []

def structBody : Parser Unit := do
  if ← check (.punct .leftBrace) then skipBraces ((← remaining) + 1) 0

def specifier : Parser (Option (List String)) := do
  let kind ← currentKind
  if kind = .word .kwStruct ∨ kind = .word .kwUnion then
    let word ← lexemeAndAdvance
    let tag ← structTag
    structBody
    return some (word :: tag)
  else if ← atType then
    return some [← lexemeAndAdvance]
  else
    return none

def specifiers : Parser (List String) := return (← many specifier).flatten

def starText : Parser (Option String) := do
  if ← accept (.punct .star) then return some "*" else return none

def typeName : Parser String := do
  let words ← specifiers
  let stars ← many starText
  return " ".intercalate words ++ String.join stars

def integerLiteral : Parser Expr := do
  let t ← current
  match Literal.integer? t.lexeme with
  | none => fail .badInteger
  | some n =>
    advance
    return .int n t.span

def floatLiteral : Parser Expr := do
  let t ← current
  match Literal.float? t.lexeme with
  | none => fail .badFloat
  | some bits =>
    advance
    return .float bits t.span

def charLiteral : Parser Expr := do
  let t ← current
  advance
  return .char (Literal.unquote t.lexeme) t.span

def stringPart : Parser (Option String) := do
  if ← check .string then return some (Literal.unquote (← lexemeAndAdvance)) else return none

def stringLiteral : Parser Expr := do
  let start ← currentSpan
  let parts ← many stringPart
  return .str (String.join parts) (← spanFrom start)

/-- A name nobody declared is a function if a parenthesis follows. -/
def identifier : Parser Expr := do
  let t ← current
  let kind := if (← peek).kind = .punct .leftParen then .function else .implicit
  advance
  return .ident (← bindName (·.resolve t.lexeme kind)) t.span

def parenthesized (nested : Parser Expr) : Parser Expr := do
  let start ← currentSpan
  advance
  let e ← nested
  expectPunct .rightParen ""
  return e.withSpan (← spanFrom start)

def primary (nested : Parser Expr) : Parser Expr := do
  match ← currentKind with
  | .integer => integerLiteral
  | .float => floatLiteral
  | .char => charLiteral
  | .string => stringLiteral
  | .identifier => identifier
  | .punct .leftParen => parenthesized nested
  | _ => fail .notExpression

def arguments (nested : Parser Expr) : Parser (List Expr) := do
  if ← check (.punct .rightParen) then return []
  commaSeparated nested

def postfixStep (nested argument : Parser Expr) (e : Expr) : Parser (Option Expr) := do
  match ← currentKind with
  | .punct .leftBracket =>
    advance
    let index ← nested
    expectPunct .rightBracket ""
    return some (.subscript e index (← spanFrom e.span))
  | .punct .leftParen =>
    advance
    let args ← arguments argument
    expectPunct .rightParen "after arguments"
    return some (.call e args (← spanFrom e.span))
  | .punct .dot => memberOf false
  | .punct .arrow => memberOf true
  | .punct .plusPlus =>
    advance
    return some (.unary .postIncr e (← spanFrom e.span))
  | .punct .minusMinus =>
    advance
    return some (.unary .postDecr e (← spanFrom e.span))
  | _ => return none
where
  memberOf (arrow : Bool) : Parser (Option Expr) := do
    advance
    let name ← expectName "member name"
    let member ← bindName (·.member name)
    return some (.field e member arrow (← spanFrom e.span))

/-- A subscripted name that nobody declared is known to be an array from here on. -/
def postfixForm (nested argument : Parser Expr) : Parser Expr := do
  let e ← extend (postfixStep nested argument) (← primary nested)
  if let some (array, rank) := e.subscriptChain? then
    modifyScopes (·.refine array (.array rank))
  return e

def sizeofForm (operand : Parser Expr) : Parser Expr := do
  let start ← currentSpan
  advance
  if ← check (.punct .leftParen) then
    if ← typeFollows then
      advance
      let _ ← typeName
      expectPunct .rightParen "after type name"
      return .sizeOfType (← spanFrom start)
  let e ← operand
  return .sizeOf e (start.merge e.span)

def castForm (operand : Parser Expr) : Parser Expr := do
  let start ← currentSpan
  advance
  let type ← typeName
  expectPunct .rightParen "after cast type"
  let e ← operand
  return .cast type e (start.merge e.span)

def unaryForm (operand nested argument : Parser Expr) : Parser Expr := do
  let t ← current
  match prefixOp? t.kind with
  | some op =>
    advance
    let e ← operand
    return .unary op e (t.span.merge e.span)
  | none =>
    if t.kind = .word .kwSizeof then
      sizeofForm operand
    else if t.kind = .punct .leftParen then
      if ← typeFollows then castForm operand else postfixForm nested argument
    else
      postfixForm nested argument

def binaryForm (level : Nat) (operand : Parser Expr) : Parser Expr := do
  extend (step level) (← operand)
where
  step (level : Nat) (lhs : Expr) : Parser (Option Expr) := do
    match binaryOp? level (← currentKind) with
    | none => return none
    | some op =>
      advance
      let rhs ← operand
      return some (.binary op lhs rhs (lhs.span.merge rhs.span))

def conditionalForm (test nested otherwise : Parser Expr) : Parser Expr := do
  let cond ← test
  if ← accept (.punct .question) then
    let yes ← nested
    expectPunct .colon "in conditional expression"
    let no ← otherwise
    return .conditional cond yes no (cond.span.merge no.span)
  return cond

def assignmentForm (target value : Parser Expr) : Parser Expr := do
  let lhs ← target
  match assignOp? (← currentKind) with
  | none => return lhs
  | some op =>
    advance
    let rhs ← value
    return .assign op lhs rhs (lhs.span.merge rhs.span)

def sequenceForm (item : Parser Expr) : Parser Expr := do
  match ← commaSeparated item with
  | [e] => return e
  | es => return .comma es (← spanFrom ((es.head?.map Expr.span).getD .none))

/-- An expression of one form. Every descent to a tighter form spends one unit of `fuel`, and
so does every token read before a descent. -/
def form : Nat → Form → Parser Expr
  | 0, _ => fail .notExpression
  | n + 1, .sequence => sequenceForm (form n .assignment)
  | n + 1, .assignment => assignmentForm (form n .conditional) (form n .assignment)
  | n + 1, .conditional =>
    conditionalForm (form n (.binary 0)) (form n .sequence) (form n .conditional)
  | n + 1, .binary level =>
    if level < binaryLevels then binaryForm level (form n (.binary (level + 1)))
    else form n .unary
  | n + 1, .unary => unaryForm (form n .unary) (form n .sequence) (form n .assignment)

def formOf (f : Form) : Parser Expr := do form (16 * ((← remaining) + 1)) f

def expression : Parser Expr := formOf .sequence

def assignment : Parser Expr := formOf .assignment

def conditional : Parser Expr := formOf .conditional

end LoopLegality.Grammar

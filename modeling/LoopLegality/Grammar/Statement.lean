import LoopLegality.Grammar.Expression
import LoopLegality.Stmt

namespace LoopLegality.Grammar

def storageOf (words : List String) : Storage :=
  let storage? : String → Option Storage
    | "static" => some .permanent
    | "extern" => some .elsewhere
    | _ => none
  (words.findSome? storage?).getD .automatic

def qualifier : Parser (Option Unit) := do
  let kind ← currentKind
  if kind = .word .kwConst ∨ kind = .word .kwVolatile ∨ kind = .word .kwRestrict then
    advance
    return some ()
  else
    return none

def qualifiedStar : Parser (Option Unit) := do
  if ← accept (.punct .star) then
    let _ ← many qualifier
    return some ()
  else
    return none

def pointerMark : Parser Bool := return !(← many qualifiedStar).isEmpty

def dimension : Parser (Option (Option Expr)) := do
  if ← accept (.punct .leftBracket) then
    if ← accept (.punct .rightBracket) then return some none
    let e ← assignment
    expectPunct .rightBracket "after array dimension"
    return some (some e)
  else
    return none

def dimensions : Parser (List (Option Expr)) := many dimension

def declaredKind (pointer : Bool) (rank : Nat) : Symbol.Kind :=
  if 0 < rank then .array rank else if pointer then .pointer else .scalar

/-- The items of an initializer list up to its closing brace; a comma may stand before it. -/
def initializerItem (item : Parser Initializer) : Bool → Parser (Option (Bool × Initializer))
  | false => return none
  | true => do
    if ← check (.punct .rightBrace) then return none
    let i ← item
    return some (← accept (.punct .comma), i)

def initializerItems (item : Parser Initializer) : Nat → Bool → Parser (List Initializer)
  | 0, _ => return []
  | n + 1, more => do
    match ← initializerItem item more with
    | none => return []
    | some (more, i) => return i :: (← initializerItems item n more)

def initializerWithin : Nat → Parser Initializer
  | 0 => fail .notExpression
  | n + 1 => do
    if ← accept (.punct .leftBrace) then
      let items ← initializerItems (initializerWithin n) ((← remaining) + 1) true
      expectPunct .rightBrace "after initializer list"
      return .list items
    else
      return .expr (← assignment)

def initializer : Parser Initializer := do initializerWithin ((← remaining) + 1)

def optionalInitializer : Parser (Option Initializer) := do
  if ← accept (.punct .assign) then return some (← initializer) else return none

/-- A declarator after its name. The name is in scope in its own initializer and not in its
own dimensions. -/
def declaratorAfter (name : String) (nameSpan : Span) (pointer : Bool) (storage : Storage) :
    Parser Declarator := do
  let dims ← dimensions
  let symbol ← bindName (·.declare name (declaredKind pointer dims.length) nameSpan)
  let init ← optionalInitializer
  return { symbol, dims, pointer, init, storage, span := ← spanFrom nameSpan }

def declarator (storage : Storage) : Parser Declarator := do
  let pointer ← pointerMark
  let nameSpan ← currentSpan
  let name ← expectName "declarator name"
  declaratorAfter name nameSpan pointer storage

def declarators (storage : Storage) : Parser (List Declarator) := do
  if ← check (.punct .semicolon) then return [] else commaSeparated (declarator storage)

def declaration : Parser (List Declarator) := do
  let ds ← declarators (storageOf (← specifiers))
  expectPunct .semicolon "after declaration"
  return ds

def withinBlock {α : Type} (p : Parser α) : Parser α := do
  modifyScopes (·.push)
  let a ← p
  modifyScopes (·.pop)
  return a

def blockItem (nested : Parser Stmt) : Parser (Option Stmt) := do
  let kind ← currentKind
  if kind = .punct .rightBrace ∨ kind = .eof then return none else return some (← nested)

def compound (nested : Parser Stmt) (pragmas : List String) : Parser Stmt := do
  let start ← currentSpan
  expectPunct .leftBrace ""
  let stmts ← withinBlock (many (blockItem nested))
  expectPunct .rightBrace ""
  return .compound stmts ⟨← spanFrom start, pragmas⟩

def parenthesizedCondition : Parser Expr := do
  expectPunct .leftParen ""
  let e ← expression
  expectPunct .rightParen ""
  return e

def expressionUnless (stop : Punct) : Parser (Option Expr) := do
  if ← check (.punct stop) then return none else return some (← expression)

def forInit : Parser (Option ForInit) := do
  let start ← currentSpan
  if ← accept (.punct .semicolon) then return none
  if ← atType then
    let ds ← declaration
    return some (.decl ⟨ds, ← spanFrom start⟩)
  let e ← expression
  expectPunct .semicolon "after for initializer"
  return some (.expr e (← spanFrom start))

def forHeader (id : LoopId) : Parser ForHeader := do
  let init ← forInit
  let cond ← expressionUnless .semicolon
  expectPunct .semicolon "after for condition"
  let incr ← expressionUnless .rightParen
  expectPunct .rightParen "after for header"
  return { id, init, cond, incr }

/-- A loop is numbered before the loops inside it, and its header opens a block. -/
def forStatement (nested : Parser Stmt) : Parser (Site → Stmt) := do
  let id ← modifyGet fun s => (s.nextLoop, { s with nextLoop := s.nextLoop + 1 })
  advance
  expectPunct .leftParen "after 'for'"
  withinBlock do
    let header ← forHeader id
    return .forLoop header (← nested)

def elseBranch (nested : Parser Stmt) : Parser (Option Stmt) := do
  if ← accept (.word .kwElse) then return some (← nested) else return none

def ifStatement (nested : Parser Stmt) : Parser (Site → Stmt) := do
  advance
  let cond ← parenthesizedCondition
  let yes ← nested
  let no ← elseBranch nested
  return .branch cond yes no

def doWhileStatement (nested : Parser Stmt) : Parser (Site → Stmt) := do
  advance
  let body ← nested
  expect (.word .kwWhile) "after do body"
  let cond ← parenthesizedCondition
  expectPunct .semicolon "after do-while"
  return .doWhile body cond

def returnStatement : Parser (Site → Stmt) := do
  advance
  let value ← expressionUnless .semicolon
  expectPunct .semicolon "after return"
  return .ret value

def gotoStatement : Parser (Site → Stmt) := do
  advance
  let target ← expectName "label after goto"
  expectPunct .semicolon "after goto"
  return .goto target

def declarationOrExpression : Parser (Site → Stmt) := do
  if ← atType then
    return .decl (← declaration)
  let e ← expression
  expectPunct .semicolon "after expression"
  return .expr e

def labelOrOther (nested : Parser Stmt) : Parser (Site → Stmt) := do
  let t ← current
  if (← peek).kind = .punct .colon then
    advance
    advance
    return .label t.lexeme (← nested)
  declarationOrExpression

def simpleStatement (nested : Parser Stmt) : Parser (Site → Stmt) := do
  match ← currentKind with
  | .punct .semicolon =>
    advance
    return .null
  | .word .kwFor => forStatement nested
  | .word .kwIf => ifStatement nested
  | .word .kwWhile =>
    advance
    let cond ← parenthesizedCondition
    return .whileLoop cond (← nested)
  | .word .kwDo => doWhileStatement nested
  | .word .kwSwitch =>
    advance
    let cond ← parenthesizedCondition
    return .switch cond (← nested)
  | .word .kwCase =>
    advance
    let value ← conditional
    expectPunct .colon "after case value"
    return .caseLabel value
  | .word .kwDefault =>
    advance
    expectPunct .colon "after default"
    return .defaultLabel
  | .word .kwBreak =>
    advance
    expectPunct .semicolon "after break"
    return .break
  | .word .kwContinue =>
    advance
    expectPunct .semicolon "after continue"
    return .continue
  | .word .kwReturn => returnStatement
  | .word .kwGoto => gotoStatement
  | .identifier => labelOrOther nested
  | _ => declarationOrExpression

def pragmaLine : Parser (Option String) := do
  if ← check .pragma then return some (← lexemeAndAdvance) else return none

def statementOf (nested : Parser Stmt) : Parser Stmt := do
  let pragmas ← many pragmaLine
  let start ← currentSpan
  if ← check (.punct .leftBrace) then
    compound nested pragmas
  else
    let stmt ← simpleStatement nested
    return stmt ⟨← spanFrom start, pragmas⟩

/-- A statement whose statements nest less deep than `n`. -/
def statementWithin : Nat → Parser Stmt
  | 0 => fail .notExpression
  | n + 1 => statementOf (statementWithin n)

def statement : Parser Stmt := do statementWithin ((← remaining) + 1)

end LoopLegality.Grammar

import LoopLegality.Grammar.Statement

namespace LoopLegality.Grammar

def parameterAfter (name : String) (nameSpan : Span) (pointer : Bool) : Parser Declarator := do
  let dims ← dimensions
  let symbol ← bindName (·.declare name (declaredKind pointer dims.length) nameSpan)
  return { symbol, dims, pointer, init := none, storage := .automatic, span := ← spanFrom nameSpan }

/-- A parameter without a name is named for its position. -/
def parameterName (position : Nat) : Parser String := do
  if ← check .identifier then lexemeAndAdvance else return s!"<param{position}>"

def parameter (position : Nat) : Parser Declarator := do
  if ← atType then
    let _ ← specifiers
    let pointer ← pointerMark
    let nameSpan ← currentSpan
    let name ← parameterName position
    parameterAfter name nameSpan pointer
  else
    fail .notParameterType

def parametersFrom : Nat → Nat → Parser (List Declarator)
  | 0, _ => return []
  | n + 1, position => do
    let p ← parameter position
    if ← accept (.punct .comma) then
      return p :: (← parametersFrom n (position + 1))
    return [p]

def parameters : Parser (List Declarator) := do
  if ← check (.punct .rightParen) then return []
  if ← check (.word .kwVoid) then
    if (← peek).kind = .punct .rightParen then
      advance
      return []
  parametersFrom ((← remaining) + 1) 0

structure Prototype where
  name : String
  symbol : Symbol
  params : List Declarator
deriving Inhabited

inductive External where
  | function (f : Function)
  | prototype (p : Prototype)
  | global (d : Declaration)
  | nothing

/-- A second declarator of a function in scope is the same one. -/
def functionSymbol (name : String) (nameSpan : Span) : Parser Symbol := do
  let scopes ← scopes
  match scopes.lookup? name with
  | some s =>
    if scopes.table.kind? s = some .function then return s
    else bindName (·.declare name .function nameSpan)
  | none => bindName (·.declare name .function nameSpan)

/-- The parameters of a function and its body, if it has one, share a block. -/
def parametersAndBody : Parser (List Declarator × Option Stmt) := withinBlock do
  let params ← parameters
  expectPunct .rightParen "after parameters"
  if ← check (.punct .leftBrace) then return (params, some (← compound statement []))
  return (params, none)

def functionAfter (start : Span) (name : String) (nameSpan : Span) : Parser External := do
  let symbol ← functionSymbol name nameSpan
  advance
  match ← parametersAndBody with
  | (params, some body) => return .function { name, symbol, params, body, span := ← spanFrom start }
  | (params, none) =>
    expectPunct .semicolon "after prototype"
    return .prototype { name, symbol, params }

def globalAfter (start : Span) (name : String) (nameSpan : Span) (pointer : Bool)
    (storage : Storage) : Parser External := do
  let first ← declaratorAfter name nameSpan pointer storage
  let rest ← many (commaItem (declarator storage))
  expectPunct .semicolon "after declaration"
  return .global ⟨first :: rest, ← spanFrom start⟩

def externalAfter (start : Span) (storage : Storage) : Parser External := do
  let pointer ← pointerMark
  let nameSpan ← currentSpan
  let name ← expectName "declarator name"
  if ← check (.punct .leftParen) then functionAfter start name nameSpan
  else globalAfter start name nameSpan pointer storage

def externalDeclaration : Parser External := do
  let start ← currentSpan
  if ← atType then
    let storage := storageOf (← specifiers)
    if ← accept (.punct .semicolon) then return .nothing else externalAfter start storage
  else
    fail .notDeclaration

def external : Parser (Option External) := do
  match ← currentKind with
  | .eof => return none
  | .pragma =>
    advance
    return some .nothing
  | _ => return some (← externalDeclaration)

def externals : Parser (List External) := many external

end LoopLegality.Grammar

namespace LoopLegality.Program

/-- Prototypes leave nothing but the names they brought into scope. -/
def ofExternals (es : List Grammar.External) (symbols : SymbolTable) : Program where
  functions := es.filterMap fun | .function f => some f | _ => none
  globals := es.filterMap fun | .global d => some d | _ => none
  symbols := symbols

def parse (source : String) : Except SourceError Program := do
  let (es, s) ← Grammar.externals (.start (Token.scan source))
  return .ofExternals es s.scopes.table

end LoopLegality.Program

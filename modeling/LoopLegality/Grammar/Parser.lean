import LoopLegality.Scope
import LoopLegality.Token.Scan

namespace LoopLegality.Grammar

/-- What is left to read, the span of the token read last, the names in scope, and the handle
of the next loop. -/
structure State where
  tokens : List Token
  ending : Except LexError Token
  previous : Span
  scopes : Scopes
  nextLoop : Nat

def State.start (scan : Token.Scan) : State := ⟨scan.tokens, scan.ending, .none, .empty, 0⟩

abbrev Parser := StateT State (Except SourceError)

/-- The token at the head of the input. Past the last token it is the end of the text, or the
fault that hides the rest of it. -/
def headToken (tokens : List Token) (ending : Except LexError Token) : Except SourceError Token :=
  match tokens, ending with
  | t :: _, _ => .ok t
  | [], .ok eof => .ok eof
  | [], .error e => .error (.lex e)

def current : Parser Token := fun s => do
  return (← headToken s.tokens s.ending, s)

def peek : Parser Token := fun s => do
  return (← headToken s.tokens.tail s.ending, s)

/-- Reads the current token. A fault right behind it is met now. -/
def advance : Parser Unit := fun s => do
  let t ← headToken s.tokens s.ending
  let _ ← headToken s.tokens.tail s.ending
  return ((), { s with tokens := s.tokens.tail, previous := t.span })

def remaining : Parser Nat := return (← get).tokens.length

def fail {α : Type} (cause : ParseError.Cause) : Parser α := do
  let t ← current
  throw (.parse ⟨cause, t.span, t.kind⟩)

def currentKind : Parser Token.Kind := return (← current).kind

def currentSpan : Parser Span := return (← current).span

def spanFrom (s : Span) : Parser Span := return s.merge (← get).previous

def check (kind : Token.Kind) : Parser Bool := return (← currentKind) = kind

def accept (kind : Token.Kind) : Parser Bool := do
  if ← check kind then
    advance
    return true
  return false

def expect (kind : Token.Kind) (place : String) : Parser Unit := do
  if ← check kind then advance else fail (.missing kind place)

def expectPunct (p : Punct) (place : String) : Parser Unit := expect (.punct p) place

def expectName (what : String) : Parser String := do
  let t ← current
  if t.kind = .identifier then
    advance
    return t.lexeme
  fail (.missingName what)

def scopes : Parser Scopes := return (← get).scopes

def modifyScopes (f : Scopes → Scopes) : Parser Unit :=
  modify fun s => { s with scopes := f s.scopes }

def bindName (f : Scopes → Symbol × Scopes) : Parser Symbol := do
  let (symbol, scopes) := f (← scopes)
  modify fun s => { s with scopes }
  return symbol

def typeNames : List String :=
  ["int8_t", "int16_t", "int32_t", "int64_t", "uint8_t", "uint16_t", "uint32_t", "uint64_t",
    "size_t", "ssize_t", "ptrdiff_t", "intptr_t", "uintptr_t", "_Bool", "bool"]

def startsType (scopes : Scopes) (t : Token) : Bool :=
  t.kind.isTypeWord ||
    (t.kind == .identifier && typeNames.contains t.lexeme && (scopes.lookup? t.lexeme).isNone)

def atType : Parser Bool := return startsType (← scopes) (← current)

def typeFollows : Parser Bool := do
  let t ← peek
  return startsType (← scopes) t

def repeatStep {α : Type} (step : Parser (Option α)) : Nat → Parser (List α)
  | 0 => return []
  | n + 1 => do
    match ← step with
    | none => return []
    | some a => return a :: (← repeatStep step n)

def many {α : Type} (step : Parser (Option α)) : Parser (List α) := do
  repeatStep step ((← remaining) + 1)

def extendStep {α : Type} (step : α → Parser (Option α)) : Nat → α → Parser α
  | 0, a => return a
  | n + 1, a => do
    match ← step a with
    | none => return a
    | some b => extendStep step n b

def extend {α : Type} (step : α → Parser (Option α)) (a : α) : Parser α := do
  extendStep step ((← remaining) + 1) a

def commaItem {α : Type} (item : Parser α) : Parser (Option α) := do
  if ← accept (.punct .comma) then return some (← item) else return none

def commaSeparated {α : Type} (item : Parser α) : Parser (List α) := do
  let first ← item
  return first :: (← many (commaItem item))

end LoopLegality.Grammar

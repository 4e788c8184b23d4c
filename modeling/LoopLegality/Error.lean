import LoopLegality.Token

namespace LoopLegality

inductive LexError.Cause where
  | unexpectedChar (c : Char)
  | unterminatedLiteral
  | unterminatedComment
  | noHexDigit
  | noExponentDigit
deriving DecidableEq, Inhabited, Repr

structure LexError where
  cause : LexError.Cause
  span : Span
deriving DecidableEq, Inhabited, Repr

namespace LexError

def Cause.message : Cause → String
  | .unexpectedChar c => s!"Unexpected character: '{c}'"
  | .unterminatedLiteral => "Unterminated literal"
  | .unterminatedComment => "Unterminated block comment"
  | .noHexDigit => "Invalid hexadecimal literal"
  | .noExponentDigit => "Invalid floating-point exponent"

def text (e : LexError) : String := s!"{e.cause.message} at {e.span.text}"

end LexError

inductive ParseError.Cause where
  | missing (kind : Token.Kind) (place : String)
  | missingName (what : String)
  | notDeclaration
  | notParameterType
  | notExpression
  | badInteger
  | badFloat
  | openStructBody
deriving DecidableEq, Inhabited, Repr

structure ParseError where
  cause : ParseError.Cause
  span : Span
  found : Token.Kind
deriving DecidableEq, Inhabited, Repr

namespace ParseError

def Cause.message : Cause → String
  | .missing kind place =>
    if place.isEmpty then s!"Expected '{kind.name}'" else s!"Expected '{kind.name}' {place}"
  | .missingName what => s!"Expected {what}"
  | .notDeclaration => "Expected declaration"
  | .notParameterType => "Expected parameter type"
  | .notExpression => "Expected expression"
  | .badInteger => "Invalid integer literal"
  | .badFloat => "Invalid float literal"
  | .openStructBody => "Unterminated struct body"

def text (e : ParseError) : String :=
  s!"{e.cause.message} at {e.span.text} (found: {e.found.name})"

end ParseError

inductive SourceError where
  | lex (e : LexError)
  | parse (e : ParseError)
deriving DecidableEq, Inhabited, Repr

namespace SourceError

def detail : SourceError → String
  | lex e => e.text
  | parse e => e.text

def message : SourceError → String
  | lex e => s!"lexer error: {e.text}"
  | parse e => s!"parse error: {e.text}"

end SourceError

inductive Unsupported.Cause where
  | expressionStatement
  | statement (description : String)
  | loopHeader
  | pointerDeclaration (name : String)
  | writeThroughPointer
  | assignmentTarget
  | complexOwner
  | dereference
  | complexAddress
  | functionPointer
  | notArrayName
  | nonAffineSubscript (array : String)
  | indexWrite (index : String)
deriving DecidableEq, Inhabited, Repr

structure Unsupported where
  cause : Unsupported.Cause
  span : Span
deriving DecidableEq, Inhabited, Repr

namespace Unsupported

def Cause.message : Cause → String
  | .expressionStatement => "expression statement is not an assignment, increment or call"
  | .statement description => s!"{description} is not supported"
  | .loopHeader => "loop header is not in counted form"
  | .pointerDeclaration name => s!"pointer declaration of '{name}' is not supported"
  | .writeThroughPointer => "assignment through a pointer dereference is not supported"
  | .assignmentTarget => "assignment target is not a variable, field or array element"
  | .complexOwner => "field reference on a complex owner is not supported"
  | .dereference => "pointer dereference is not supported"
  | .complexAddress => "address of a complex expression is not supported"
  | .functionPointer => "call through a function pointer is not supported"
  | .notArrayName => "subscripted expression is not an array name"
  | .nonAffineSubscript array => s!"subscript of '{array}' is not affine"
  | .indexWrite index => s!"loop index '{index}' is written inside its loop"

def text (u : Unsupported) : String :=
  if u.span.isNone then u.cause.message else s!"{u.cause.message} at {u.span.text}"

end Unsupported

inductive InvalidRequest where
  | tooManyAccesses (count limit : Nat)
  | notForLoop (description : String) (line : Nat)
  | swapOutOfRange (i j length : Nat)
  | noFunction (name : String)
  | noLoop (function : String) (count position : Nat)
deriving DecidableEq, Inhabited, Repr

def InvalidRequest.message : InvalidRequest → String
  | tooManyAccesses count limit =>
    s!"region has {count} accesses, more than the configured limit of {limit}"
  | notForLoop description line => s!"selected {description} at line {line} is not a for loop"
  | swapOutOfRange i j length =>
    s!"cannot swap positions {i} and {j} of a direction vector of length {length}"
  | noFunction name => s!"no function named '{name}'"
  | noLoop function count position =>
    s!"function '{function}' has {count} loops, no loop {position}"

/-- Why an analysis gives no answer. An overflow is no answer of its own: the run ends with it. -/
inductive AnalysisError where
  | unsupported (u : Unsupported)
  | invalid (r : InvalidRequest)
  | cancelled
  | overflow
deriving DecidableEq, Inhabited, Repr

def AnalysisError.message : AnalysisError → String
  | unsupported u => s!"unsupported construct: {u.text}"
  | invalid r => s!"invalid argument: {r.message}"
  | cancelled => "analysis cancelled"
  | overflow => "arithmetic overflow"

end LoopLegality

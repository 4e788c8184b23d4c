import LoopLegality.Span

namespace LoopLegality

inductive Keyword where
  | kwFor | kwWhile | kwDo | kwIf | kwElse | kwSwitch | kwCase | kwDefault | kwBreak
  | kwContinue | kwReturn | kwGoto | kwSizeof
  | kwVoid | kwChar | kwShort | kwInt | kwLong | kwFloat | kwDouble | kwSigned | kwUnsigned
  | kwConst | kwVolatile | kwStatic | kwExtern | kwRegister | kwInline | kwRestrict
  | kwStruct | kwUnion
deriving DecidableEq, Inhabited, Repr

namespace Keyword

def all : List Keyword :=
  [kwFor, kwWhile, kwDo, kwIf, kwElse, kwSwitch, kwCase, kwDefault, kwBreak, kwContinue,
    kwReturn, kwGoto, kwSizeof, kwVoid, kwChar, kwShort, kwInt, kwLong, kwFloat, kwDouble,
    kwSigned, kwUnsigned, kwConst, kwVolatile, kwStatic, kwExtern, kwRegister, kwInline,
    kwRestrict, kwStruct, kwUnion]

def spelling : Keyword → String
  | kwFor => "for" | kwWhile => "while" | kwDo => "do" | kwIf => "if" | kwElse => "else"
  | kwSwitch => "switch" | kwCase => "case" | kwDefault => "default" | kwBreak => "break"
  | kwContinue => "continue" | kwReturn => "return" | kwGoto => "goto" | kwSizeof => "sizeof"
  | kwVoid => "void" | kwChar => "char" | kwShort => "short" | kwInt => "int"
  | kwLong => "long" | kwFloat => "float" | kwDouble => "double" | kwSigned => "signed"
  | kwUnsigned => "unsigned" | kwConst => "const" | kwVolatile => "volatile"
  | kwStatic => "static" | kwExtern => "extern" | kwRegister => "register"
  | kwInline => "inline" | kwRestrict => "restrict" | kwStruct => "struct"
  | kwUnion => "union"

def ofSpelling? (s : String) : Option Keyword := all.find? (·.spelling == s)

def isTypeWord : Keyword → Bool
  | kwFor | kwWhile | kwDo | kwIf | kwElse | kwSwitch | kwCase | kwDefault | kwBreak
  | kwContinue | kwReturn | kwGoto | kwSizeof => false
  | _ => true

end Keyword

inductive Punct where
  | shiftLeftAssign | shiftRightAssign
  | plusPlus | minusMinus | shiftLeft | shiftRight | equalEqual | bangEqual
  | lessEqual | greaterEqual | plusAssign | minusAssign | starAssign | slashAssign
  | percentAssign | ampAssign | pipeAssign | caretAssign | ampAmp | pipePipe | arrow
  | plus | minus | star | slash | percent | amp | pipe | caret | tilde | less | greater
  | assign | bang | leftParen | rightParen | leftBracket | rightBracket | leftBrace
  | rightBrace | comma | semicolon | colon | question | dot
deriving DecidableEq, Inhabited, Repr

namespace Punct

/-- Longer spellings stand before shorter ones. -/
def all : List Punct :=
  [shiftLeftAssign, shiftRightAssign, plusPlus, minusMinus, shiftLeft, shiftRight,
    equalEqual, bangEqual, lessEqual, greaterEqual, plusAssign, minusAssign, starAssign,
    slashAssign, percentAssign, ampAssign, pipeAssign, caretAssign, ampAmp, pipePipe, arrow,
    plus, minus, star, slash, percent, amp, pipe, caret, tilde, less, greater, assign, bang,
    leftParen, rightParen, leftBracket, rightBracket, leftBrace, rightBrace, comma,
    semicolon, colon, question, dot]

def chars : Punct → List Char
  | shiftLeftAssign => ['<', '<', '='] | shiftRightAssign => ['>', '>', '=']
  | plusPlus => ['+', '+'] | minusMinus => ['-', '-'] | shiftLeft => ['<', '<']
  | shiftRight => ['>', '>'] | equalEqual => ['=', '='] | bangEqual => ['!', '=']
  | lessEqual => ['<', '='] | greaterEqual => ['>', '='] | plusAssign => ['+', '=']
  | minusAssign => ['-', '='] | starAssign => ['*', '='] | slashAssign => ['/', '=']
  | percentAssign => ['%', '='] | ampAssign => ['&', '='] | pipeAssign => ['|', '=']
  | caretAssign => ['^', '='] | ampAmp => ['&', '&'] | pipePipe => ['|', '|']
  | arrow => ['-', '>'] | plus => ['+'] | minus => ['-'] | star => ['*'] | slash => ['/']
  | percent => ['%'] | amp => ['&'] | pipe => ['|'] | caret => ['^'] | tilde => ['~']
  | less => ['<'] | greater => ['>'] | assign => ['='] | bang => ['!']
  | leftParen => ['('] | rightParen => [')'] | leftBracket => ['['] | rightBracket => [']']
  | leftBrace => ['{'] | rightBrace => ['}'] | comma => [','] | semicolon => [';']
  | colon => [':'] | question => ['?'] | dot => ['.']

def spelling (p : Punct) : String := String.ofList p.chars

def longest? (cs : List Char) : Option Punct := all.find? (·.chars.isPrefixOf cs)

def isAssignment : Punct → Bool
  | assign | plusAssign | minusAssign | starAssign | slashAssign | percentAssign | ampAssign
  | pipeAssign | caretAssign | shiftLeftAssign | shiftRightAssign => true
  | _ => false

end Punct

namespace Token

inductive Kind where
  | integer | float | char | string | identifier | pragma
  | word (k : Keyword)
  | punct (p : Punct)
  | eof
deriving DecidableEq, Inhabited, Repr

namespace Kind

def name : Kind → String
  | integer => "integer"
  | float => "float literal"
  | char => "character literal"
  | string => "string"
  | identifier => "identifier"
  | pragma => "#pragma"
  | word k => k.spelling
  | punct p => p.spelling
  | eof => "end of file"

def isTypeWord : Kind → Bool
  | word k => k.isTypeWord
  | _ => false

def isAssignment : Kind → Bool
  | punct p => p.isAssignment
  | _ => false

end Kind

end Token

/-- A word of the source. The lexeme of a pragma is its directive with blanks squeezed; every
other lexeme is the text under the span. -/
structure Token where
  kind : Token.Kind
  lexeme : String
  span : Span
deriving DecidableEq, Inhabited, Repr

end LoopLegality

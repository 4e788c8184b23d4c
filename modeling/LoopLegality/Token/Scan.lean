import LoopLegality.Error
import LoopLegality.Text.Blank
import LoopLegality.Text.Identifier

namespace LoopLegality.Token

/-- What a text that is not empty begins with. Every chunk holds the first character, and
`extra` counts the characters after it. -/
inductive Chunk where
  | layout (extra : Nat)
  | directive (extra : Nat) (text : List Char)
  | lexeme (extra : Nat) (kind : Kind)
  | fault (extra : Nat) (cause : LexError.Cause)

def isLayout (c : Char) : Bool :=
  c == ' ' || c == '\t' || c == '\r' || c == '\n' || c == '\x0c'

def isHexDigit (c : Char) : Bool :=
  c.isDigit || ('a' ≤ c && c ≤ 'f') || ('A' ≤ c && c ≤ 'F')

def countWhile (p : Char → Bool) (cs : List Char) : Nat := (cs.takeWhile p).length

def commentLength? : List Char → Option Nat
  | [] => none
  | '*' :: '/' :: _ => some 2
  | _ :: cs => (commentLength? cs).map (· + 1)

/-- The length and the text of the rest of a directive. A line break after a backslash does
not end it and stands for a space. -/
def directiveRest : List Char → Nat × List Char
  | [] => (0, [])
  | '\n' :: _ => (0, [])
  | '\\' :: '\n' :: cs => let r := directiveRest cs; (r.1 + 2, ' ' :: r.2)
  | c :: cs => let r := directiveRest cs; (r.1 + 1, c :: r.2)

/-- The length of the rest of a literal, its closing quote included, or of what was read
before the line or the text ended. A backslash hides the character after it. -/
def quotedRest (quote : Char) : List Char → Except Nat Nat
  | [] => .error 0
  | c :: cs =>
    if c = quote then .ok 1
    else if c = '\n' then .error 1
    else if c = '\\' then
      match cs with
      | [] => .error 1
      | _ :: cs => match quotedRest quote cs with
        | .ok n => .ok (n + 2)
        | .error n => .error (n + 2)
    else match quotedRest quote cs with
      | .ok n => .ok (n + 1)
      | .error n => .error (n + 1)

def quotedChunk (kind : Kind) (quote : Char) (cs : List Char) : Chunk :=
  match quotedRest quote cs with
  | .ok n => .lexeme n kind
  | .error n => .fault n .unterminatedLiteral

def suffixLength (isFloat : Bool) (cs : List Char) : Nat :=
  countWhile (fun c => c == 'u' || c == 'U' || c == 'l' || c == 'L' ||
    (isFloat && (c == 'f' || c == 'F'))) cs

def hexChunk (digits : List Char) : Chunk :=
  let n := countWhile isHexDigit digits
  if n = 0 then .fault 1 .noHexDigit
  else .lexeme (1 + n + suffixLength false (digits.drop n)) .integer

/-- The length of an exponent, zero if there is none; an error counts what was read before a
digit was missed. -/
def exponentLength (cs : List Char) : Except Nat Nat :=
  match cs with
  | e :: cs =>
    if e == 'e' || e == 'E' then
      let sign := match cs with
        | s :: _ => if s == '+' || s == '-' then 1 else 0
        | [] => 0
      let n := countWhile Char.isDigit (cs.drop sign)
      if n = 0 then .error (1 + sign) else .ok (1 + sign + n)
    else .ok 0
  | [] => .ok 0

def decimalChunk (cs : List Char) : Chunk :=
  let whole := countWhile Char.isDigit cs
  let fraction := match cs.drop whole with
    | '.' :: cs => 1 + countWhile Char.isDigit cs
    | _ => 0
  let mantissa := whole + fraction
  match exponentLength (cs.drop mantissa) with
  | .error n => .fault (mantissa + n - 1) .noExponentDigit
  | .ok n =>
    let isFloat := 0 < fraction + n
    let length := mantissa + n
    .lexeme (length + suffixLength isFloat (cs.drop length) - 1)
      (if isFloat then .float else .integer)

def wordKind (lexeme : List Char) : Kind :=
  match Keyword.ofSpelling? (String.ofList lexeme) with
  | some k => .word k
  | none => .identifier

def lexemeChunk (c : Char) (cs : List Char) : Chunk :=
  if c.isDigit then
    match cs with
    | x :: digits =>
      if c = '0' && (x == 'x' || x == 'X') then hexChunk digits else decimalChunk (c :: cs)
    | [] => decimalChunk (c :: cs)
  else if c = '.' && cs.head?.any Char.isDigit then decimalChunk (c :: cs)
  else if c = '"' then quotedChunk .string c cs
  else if c = '\'' then quotedChunk .char c cs
  else if Text.isIdentStart c then
    let n := countWhile Text.isIdentRest cs
    .lexeme n (wordKind (c :: cs.take n))
  else match Punct.longest? (c :: cs) with
    | some p => .lexeme (p.chars.length - 1) (.punct p)
    | none => .fault 0 (.unexpectedChar c)

/-- A hash sign opens a directive only where no token stands before it on its line. -/
def chunk (lineStart : Bool) (c : Char) (cs : List Char) : Chunk :=
  if isLayout c then .layout 0
  else match c, cs with
    | '\\', '\n' :: _ => .layout 1
    | '/', '/' :: cs => .layout (1 + countWhile (· != '\n') cs)
    | '/', '*' :: cs => match commentLength? cs with
      | some n => .layout (1 + n)
      | none => .fault (1 + cs.length) .unterminatedComment
    | c, cs =>
      if c = '#' && lineStart then
        let r := directiveRest cs
        .directive r.1 r.2
      else lexemeChunk c cs

structure Scan where
  tokens : List Token
  ending : Except LexError Token

def Scan.cons (t : Token) (s : Scan) : Scan := ⟨t :: s.tokens, s.ending⟩

def endScan (p : Position) : Scan := ⟨[], .ok ⟨.eof, "", ⟨p, p⟩⟩⟩

/-- The tokens of a text that begins at `p`. Each step reads at least one character, so a text
no longer than `fuel` is read to its end. -/
def scanFrom (fuel : Nat) (lineStart : Bool) (p : Position) (cs : List Char) : Scan :=
  match fuel, cs with
  | _, [] => endScan p
  | 0, _ => endScan p
  | fuel + 1, c :: cs =>
    match chunk lineStart c cs with
    | .layout extra =>
      let read := c :: cs.take extra
      scanFrom fuel (lineStart || read.contains '\n') (p.after read) (cs.drop extra)
    | .directive extra text =>
      let q := p.after (c :: cs.take extra)
      let rest := scanFrom fuel true q (cs.drop extra)
      if (Text.words text).head? = some "pragma".toList then
        .cons ⟨.pragma, String.ofList (Text.squeeze text), ⟨p, q⟩⟩ rest
      else rest
    | .lexeme extra kind =>
      let read := c :: cs.take extra
      let q := p.after read
      .cons ⟨kind, String.ofList read, ⟨p, q⟩⟩
        (scanFrom fuel (read.contains '\n') q (cs.drop extra))
    | .fault extra cause => ⟨[], .error ⟨cause, ⟨p, p.after (c :: cs.take extra)⟩⟩⟩

def scan (source : String) : Scan :=
  let cs := source.toList
  scanFrom cs.length true .start cs

end LoopLegality.Token

namespace LoopLegality

/-- A place in a text: line and column count characters from one, the offset counts bytes of
UTF-8 from zero. -/
structure Position where
  line : Nat
  column : Nat
  offset : Nat
deriving DecidableEq, Inhabited, Repr

namespace Position

def start : Position := ⟨1, 1, 0⟩

def next (p : Position) (c : Char) : Position :=
  if c = '\n' then ⟨p.line + 1, 1, p.offset + c.utf8Size⟩
  else ⟨p.line, p.column + 1, p.offset + c.utf8Size⟩

def after (p : Position) (cs : List Char) : Position := cs.foldl next p

def text (p : Position) : String := s!"{p.line}:{p.column}"

end Position

/-- A half-open range of text. All of a span of no text is zero. -/
structure Span where
  first : Position
  last : Position
deriving DecidableEq, Inhabited, Repr

namespace Span

def none : Span := ⟨⟨0, 0, 0⟩, ⟨0, 0, 0⟩⟩

/-- A span on line zero covers no text. -/
def isNone (s : Span) : Bool := s.first.line == 0 && s.last.line == 0

def merge (s t : Span) : Span :=
  if s.isNone then t
  else if t.isNone then s
  else ⟨if s.first.offset ≤ t.first.offset then s.first else t.first,
    if t.last.offset ≤ s.last.offset then s.last else t.last⟩

def text (s : Span) : String :=
  if s.first.line = s.last.line then
    s!"{s.first.line}:{s.first.column}-{s.last.column}"
  else
    s!"{s.first.line}:{s.first.column}-{s.last.line}:{s.last.column}"

def dropBytes : Nat → List Char → Option (List Char)
  | 0, cs => some cs
  | _ + 1, [] => Option.none
  | n + 1, c :: cs => if c.utf8Size ≤ n + 1 then dropBytes (n + 1 - c.utf8Size) cs else Option.none

def takeBytes : Nat → List Char → Option (List Char)
  | 0, _ => some []
  | _ + 1, [] => Option.none
  | n + 1, c :: cs =>
    if c.utf8Size ≤ n + 1 then (takeBytes (n + 1 - c.utf8Size) cs).map (c :: ·) else Option.none

/-- The text under a span whose ends lie in order on character boundaries. -/
def snippet? (s : Span) (source : String) : Option String := do
  if s.last.offset < s.first.offset then failure
  let rest ← dropBytes s.first.offset source.toList
  let cs ← takeBytes (s.last.offset - s.first.offset) rest
  return String.ofList cs

end Span

end LoopLegality

import LoopLegality.Text.Binary64
import LoopLegality.Word

namespace LoopLegality.Literal

def digitValue? (base : Nat) (c : Char) : Option Nat :=
  let v :=
    if c.isDigit then c.toNat - '0'.toNat
    else if 'a' ≤ c ∧ c ≤ 'f' then c.toNat - 'a'.toNat + 10
    else if 'A' ≤ c ∧ c ≤ 'F' then c.toNat - 'A'.toNat + 10
    else base
  if v < base then some v else none

def natOf? (base : Nat) (cs : List Char) : Option Nat :=
  cs.foldlM (fun n c => (digitValue? base c).map (n * base + ·)) 0

def trimEnd (p : Char → Bool) (cs : List Char) : List Char :=
  (cs.reverse.dropWhile p).reverse

def isIntegerSuffix (c : Char) : Bool := c == 'u' || c == 'U' || c == 'l' || c == 'L'

def isFloatSuffix (c : Char) : Bool := c == 'f' || c == 'F' || c == 'l' || c == 'L'

def magnitude? : List Char → Option Nat
  | '0' :: 'x' :: cs => natOf? 16 cs
  | '0' :: 'X' :: cs => natOf? 16 cs
  | '0' :: c :: cs => natOf? 8 (c :: cs)
  | cs => natOf? 10 cs

/-- The value of an integer literal: hexadecimal after `0x`, octal after any other leading
zero, and refused when a word cannot hold it. -/
def integer? (lexeme : String) : Option Int := do
  let n ← magnitude? (trimEnd isIntegerSuffix lexeme.toList)
  Word.fit? n

def exponent? : List Char → Option Int
  | [] => some 0
  | _ :: '+' :: cs => (natOf? 10 cs).map Int.ofNat
  | _ :: '-' :: cs => (natOf? 10 cs).map fun n => -Int.ofNat n
  | _ :: cs => (natOf? 10 cs).map Int.ofNat

/-- The binary64 pattern of a decimal literal, refused if more than its suffix follows the
number. -/
def float? (lexeme : String) : Option Nat := do
  let cs := trimEnd isFloatSuffix lexeme.toList
  let whole := cs.takeWhile Char.isDigit
  let rest := cs.dropWhile Char.isDigit
  let (fraction, rest) := match rest with
    | '.' :: rest => (rest.takeWhile Char.isDigit, rest.dropWhile Char.isDigit)
    | rest => ([], rest)
  if rest.head?.any (fun c => c != 'e' && c != 'E') then failure
  let digits ← natOf? 10 (whole ++ fraction)
  let exponent ← exponent? rest
  return Text.Binary64.ofDecimal digits (exponent - fraction.length)

def unquote (lexeme : String) : String := String.ofList lexeme.toList.tail.dropLast

end LoopLegality.Literal

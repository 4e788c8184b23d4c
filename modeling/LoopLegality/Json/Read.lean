import LoopLegality.Json

namespace LoopLegality.JsonValue

def isSpace (c : Char) : Bool := c == ' ' || c == '\n' || c == '\t' || c == '\r'

def skip (cs : List Char) : List Char := cs.dropWhile isSpace

def hexValue? (c : Char) : Option Nat :=
  if c.isDigit then some (c.toNat - 48)
  else if 'a' ≤ c ∧ c ≤ 'f' then some (c.toNat - 87)
  else if 'A' ≤ c ∧ c ≤ 'F' then some (c.toNat - 55)
  else none

def readUnit : List Char → Option (Nat × List Char)
  | a :: b :: c :: d :: rest => do
    let n := (← hexValue? a) * 4096 + (← hexValue? b) * 256 + (← hexValue? c) * 16 +
      (← hexValue? d)
    return (n, rest)
  | _ => none

inductive Piece where
  | char (c : Char)
  | unit (n : Nat)

def readEscape : List Char → Option (Piece × List Char)
  | '"' :: rest => some (.char '"', rest)
  | '\\' :: rest => some (.char '\\', rest)
  | '/' :: rest => some (.char '/', rest)
  | 'b' :: rest => some (.char '\x08', rest)
  | 'f' :: rest => some (.char '\x0c', rest)
  | 'n' :: rest => some (.char '\n', rest)
  | 'r' :: rest => some (.char '\r', rest)
  | 't' :: rest => some (.char '\t', rest)
  | 'u' :: rest => do
    let (n, rest) ← readUnit rest
    return (.unit n, rest)
  | _ => none

def readPieces : Nat → List Char → Option (List Piece × List Char)
  | 0, _ => none
  | fuel + 1, cs =>
    match cs with
    | '"' :: rest => some ([], rest)
    | '\\' :: rest => do
      let (p, rest) ← readEscape rest
      let (ps, rest) ← readPieces fuel rest
      return (p :: ps, rest)
    | c :: rest =>
      if c.toNat < 0x20 then none
      else do
        let (ps, rest) ← readPieces fuel rest
        return (.char c :: ps, rest)
    | [] => none

/-- The characters of the pieces. Units of a pair make one character and stand side by
side. -/
def decode : List Piece → Option (List Char)
  | [] => some []
  | .char c :: ps => do return c :: (← decode ps)
  | .unit n :: ps =>
    if n < 0xD800 ∨ 0xE000 ≤ n then do return Char.ofNat n :: (← decode ps)
    else match ps with
      | .unit m :: ps =>
        if n < 0xDC00 ∧ 0xDC00 ≤ m ∧ m < 0xE000 then do
          return Char.ofNat (0x10000 + (n - 0xD800) * 0x400 + (m - 0xDC00)) :: (← decode ps)
        else none
      | _ => none

def readText (cs : List Char) : Option (Option String × List Char) := do
  let (ps, rest) ← readPieces (cs.length + 1) cs
  return ((decode ps).map String.ofList, rest)

def readDigits (cs : List Char) : Option (List Char × List Char) :=
  match cs.takeWhile Char.isDigit with
  | [] => none
  | ds => some (ds, cs.dropWhile Char.isDigit)

def readFraction : List Char → Option (Bool × List Char)
  | '.' :: rest => (readDigits rest).map fun r => (true, r.2)
  | cs => some (false, cs)

def readExponent : List Char → Option (Bool × List Char)
  | c :: rest =>
    if c == 'e' || c == 'E' then
      let rest := match rest with
        | '+' :: r | '-' :: r => r
        | r => r
      (readDigits rest).map fun r => (true, r.2)
    else some (false, c :: rest)
  | [] => some (false, [])

/-- A number without its sign. A leading zero stands alone. -/
def readNumber (negative : Bool) (cs : List Char) : Option (JsonValue × List Char) := do
  let (digits, rest) ← match cs with
    | '0' :: rest => if (rest.head?.any Char.isDigit) then none else some (['0'], rest)
    | cs => readDigits cs
  let (fraction, rest) ← readFraction rest
  let (exponent, rest) ← readExponent rest
  let n : Nat := digits.foldl (fun n d => n * 10 + (d.toNat - 48)) 0
  if fraction || exponent || (negative && n == 0) then
    let lexeme := String.ofList (cs.take (cs.length - rest.length))
    return (.number (if negative then "-" ++ lexeme else lexeme), rest)
  return (.int (if negative then -n else n), rest)

def readWord (word : String) (v : JsonValue) (cs : List Char) : Option (JsonValue × List Char) :=
  if word.toList.isPrefixOf cs then some (v, cs.drop word.length) else none

mutual

def readValue : Nat → List Char → Option (JsonValue × List Char)
  | 0, _ => none
  | fuel + 1, cs =>
    match skip cs with
    | 'n' :: rest => readWord "ull" .null rest
    | 't' :: rest => readWord "rue" (.bool true) rest
    | 'f' :: rest => readWord "alse" (.bool false) rest
    | '"' :: rest => (readText rest).map fun (t, rest) => (.str t, rest)
    | '-' :: rest => readNumber true rest
    | '[' :: rest =>
      match skip rest with
      | ']' :: rest => some (.arr [], rest)
      | rest => (readItems fuel rest).map fun (vs, rest) => (.arr vs, rest)
    | '\x7b' :: rest =>
      match skip rest with
      | '\x7d' :: rest => some (.obj [], rest)
      | rest => (readFields fuel rest).map fun (fs, rest) => (.obj fs, rest)
    | cs => readNumber false cs

def readItems : Nat → List Char → Option (List JsonValue × List Char)
  | 0, _ => none
  | fuel + 1, cs => do
    let (v, rest) ← readValue fuel cs
    match skip rest with
    | ',' :: rest =>
      let (vs, rest) ← readItems fuel rest
      return (v :: vs, rest)
    | ']' :: rest => return ([v], rest)
    | _ => none

def readFields : Nat → List Char → Option (List (Option String × JsonValue) × List Char)
  | 0, _ => none
  | fuel + 1, cs =>
    match skip cs with
    | '"' :: rest => do
      let (k, rest) ← readText rest
      match skip rest with
      | ':' :: rest =>
        let (v, rest) ← readValue fuel rest
        match skip rest with
        | ',' :: rest =>
          let (fs, rest) ← readFields fuel rest
          return ((k, v) :: fs, rest)
        | '\x7d' :: rest => return ([(k, v)], rest)
        | _ => none
      | _ => none
    | _ => none

end

def read? (text : String) : Option JsonValue := do
  let cs := text.toList
  let (v, rest) ← readValue (2 * cs.length + 1) cs
  if (skip rest).isEmpty then return v else none

end LoopLegality.JsonValue

namespace LoopLegality

/-- A document of the JSON format. A number that is not a plain integer is kept as it is
written, and a text is missing where its escapes name no characters. -/
inductive JsonValue where
  | null
  | bool (b : Bool)
  | int (n : Int)
  | number (lexeme : String)
  | str (text : Option String)
  | arr (items : List JsonValue)
  | obj (fields : List (Option String × JsonValue))

namespace JsonValue

def text (s : String) : JsonValue := str (some s)

def nat (n : Nat) : JsonValue := int n

def object (fields : List (String × JsonValue)) : JsonValue :=
  obj (fields.map fun (k, v) => (some k, v))

def optional {α : Type} (f : α → JsonValue) : Option α → JsonValue
  | some a => f a
  | none => null

def escape (c : Char) : List Char :=
  match c with
  | '"' => ['\\', '"']
  | '\\' => ['\\', '\\']
  | '\n' => ['\\', 'n']
  | '\r' => ['\\', 'r']
  | '\t' => ['\\', 't']
  | '\x08' => ['\\', 'b']
  | '\x0c' => ['\\', 'f']
  | c =>
    if c.toNat < 0x20 then
      ['\\', 'u', '0', '0', Nat.digitChar (c.toNat / 16), Nat.digitChar (c.toNat % 16)]
    else [c]

def quoted (s : String) : String := String.ofList ('"' :: s.toList.flatMap escape ++ ['"'])

def newline (indent : Nat) : String := "\n" ++ String.ofList (List.replicate indent ' ')

def bracketed (indent : Nat) (opening closing : String) (items : List String) : String :=
  if items.isEmpty then opening ++ closing
  else opening ++ newline (indent + 2) ++ ("," ++ newline (indent + 2)).intercalate items ++
    newline indent ++ closing

mutual

def pretty (indent : Nat) : JsonValue → String
  | null => "null"
  | bool b => if b then "true" else "false"
  | int n => toString n
  | number lexeme => lexeme
  | str s => quoted (s.getD "")
  | arr items => bracketed indent "[" "]" (prettyItems (indent + 2) items)
  | obj fields => bracketed indent "\x7b" "\x7d" (prettyFields (indent + 2) fields)

def prettyItems (indent : Nat) : List JsonValue → List String
  | [] => []
  | v :: vs => v.pretty indent :: prettyItems indent vs

def prettyFields (indent : Nat) : List (Option String × JsonValue) → List String
  | [] => []
  | (k, v) :: fs => (quoted (k.getD "") ++ ": " ++ v.pretty indent) :: prettyFields indent fs

end

end JsonValue

end LoopLegality

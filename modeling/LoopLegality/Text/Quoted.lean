import LoopLegality.Text.Visible

namespace LoopLegality.Text

/-- A character as it is written between double quotes. One that cannot be seen alone is
written by its number. -/
def escape (c : Char) : List Char :=
  match c with
  | '"' | '\\' => ['\\', c]
  | '\n' => ['\\', 'n']
  | '\r' => ['\\', 'r']
  | '\t' => ['\\', 't']
  | '\x00' => ['\\', '0']
  | c =>
    if isVisible c then [c]
    else ['\\', 'u', '\x7b'] ++ Nat.toDigits 16 c.toNat ++ ['\x7d']

def quoted (s : String) : String := String.ofList ('"' :: s.toList.flatMap escape ++ ['"'])

end LoopLegality.Text

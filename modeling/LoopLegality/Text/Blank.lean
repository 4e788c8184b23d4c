namespace LoopLegality.Text

def isBlank (c : Char) : Bool :=
  let n := c.toNat
  (9 ≤ n && n ≤ 13) || n == 0x20 || n == 0x85 || n == 0xa0 || n == 0x1680 ||
    (0x2000 ≤ n && n ≤ 0x200a) || n == 0x2028 || n == 0x2029 || n == 0x202f ||
    n == 0x205f || n == 0x3000

def words : List Char → List (List Char)
  | [] => []
  | c :: cs =>
    if isBlank c then words cs
    else match cs with
      | [] => [[c]]
      | d :: _ =>
        if isBlank d then [c] :: words cs
        else match words cs with
          | [] => [[c]]
          | w :: ws => (c :: w) :: ws

def squeeze (cs : List Char) : List Char :=
  [' '].intercalate (words cs)

end LoopLegality.Text

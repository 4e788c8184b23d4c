namespace LoopLegality

/-- The order of texts by their bytes is the order by their characters. -/
def insertName (name : String) : List String → List String
  | [] => [name]
  | n :: ns =>
    if name < n then name :: n :: ns
    else if name = n then n :: ns
    else n :: insertName name ns

def nameSet (names : List String) : List String := names.foldl (fun ns n => insertName n ns) []

/-- The mathematical functions of the standard library, which touch no memory that a caller
can reach. -/
def mathFunctions : List String :=
  nameSet (["acos", "asin", "atan", "atan2", "cos", "cosh", "exp", "fabs", "fmax", "fmin",
    "log", "log10", "pow", "sin", "sinh", "sqrt", "tan", "tanh"].flatMap fun n => [n, n ++ "f"])

/-- What an analysis may assume and refuse. -/
structure Config where
  whitelist : List String
  strictSubscripts : Bool
  propagateConstants : Bool
  maxAccesses : Option Nat
deriving DecidableEq, Inhabited, Repr

namespace Config

def default : Config := ⟨mathFunctions, false, true, none⟩

def allow (c : Config) (name : String) : Config :=
  { c with whitelist := insertName name c.whitelist }

end Config

end LoopLegality

import LoopLegality.CommandLine.Run

namespace LoopLegality

inductive PathError where
  | missing
  | notDirectory
  | isDirectory
  | nameTooLong
deriving DecidableEq, Repr

namespace PathError

def text : PathError → String
  | missing => "No such file or directory (os error 2)"
  | notDirectory => "Not a directory (os error 20)"
  | isDirectory => "Is a directory (os error 21)"
  | nameTooLong => "File name too long (os error 36)"

end PathError

/-- The names on the way from the working directory. A place above it is reached by `..`, one
below the root by `/`. -/
abbrev Place := List String

namespace Place

def isTop (p : Place) : Bool := p.all (· == "..") || p == ["/"]

def start (path : String) : Place := if path.startsWith "/" then ["/"] else []

def next (p : Place) (name : String) : Place :=
  if name == "" || name == "." then p
  else if name == ".." then
    if p == ["/"] then p else if p.isTop then p ++ [name] else p.dropLast
  else p ++ [name]

end Place

/-- Files in memory. The directories are those on the way to a file and those at the top. -/
structure Store where
  files : List (Place × String)
deriving DecidableEq, Inhabited, Repr

namespace Store

def maxName : Nat := 255

def maxPath : Nat := 4095

def file? (s : Store) (p : Place) : Option String := s.files.lookup p

def isDirectory (s : Store) (p : Place) : Bool :=
  p.isTop || s.files.any fun f => p.isPrefixOf f.1 && p != f.1

def put (s : Store) (p : Place) (text : String) : Store :=
  ⟨(p, text) :: s.files.filter (·.1 != p)⟩

def enter (s : Store) (p : Place) (name : String) : Except PathError Place :=
  if s.isDirectory p then
    if maxName < name.utf8ByteSize then .error .nameTooLong else .ok (p.next name)
  else if (s.file? p).isSome then .error .notDirectory
  else .error .missing

def resolve (s : Store) (path : String) (names : List String) : Except PathError Place :=
  if maxPath < path.utf8ByteSize then .error .nameTooLong
  else names.foldlM s.enter (Place.start path)

def read (s : Store) (path : String) : Except PathError String := do
  let p ← s.resolve path (path.splitOn "/")
  match s.file? p with
  | some text => return text
  | none => throw (if s.isDirectory p then .isDirectory else .missing)

/-- The names on the way to a file that is to be written. A slash at the end asks for a
directory, whatever the name before it, so that name is left out. -/
def targetNames (path : String) : List String :=
  let names := path.splitOn "/"
  if path.endsWith "/" then
    (names.reverse.dropWhile (· == "")).tail.reverse ++ [""]
  else names

/-- A file is made where there is none, a directory never. -/
def write (s : Store) (path text : String) : Except PathError Store := do
  let p ← s.resolve path (targetNames path)
  if s.isDirectory p then throw .isDirectory
  return s.put p text

def ofList (files : List (String × String)) : Store :=
  files.foldl (fun s (path, text) =>
    s.put ((path.splitOn "/").foldl Place.next (Place.start path)) text) ⟨[]⟩

def asFiles : Files (StateM Store) where
  read path := do return ((← get).read path).mapError PathError.text
  write path text := do
    match (← get).write path text with
    | .ok s => set s; return .ok ()
    | .error e => return .error e.text

end Store

end LoopLegality

import LoopLegality.Report

namespace LoopLegality

/-- Options of the command line. The first ten take a value. -/
inductive Switch where
  | output | function | loop | check | depth | factor | width | height | newName | config
  | json | verbose | quiet | help | version
deriving DecidableEq, Inhabited, Repr

namespace Switch

def name : Switch → String
  | output => "output"
  | function => "function"
  | loop => "loop"
  | check => "check"
  | depth => "depth"
  | factor => "factor"
  | width => "width"
  | height => "height"
  | newName => "new-name"
  | config => "config"
  | json => "json"
  | verbose => "verbose"
  | quiet => "quiet"
  | help => "help"
  | version => "version"

def all : List Switch :=
  [output, function, loop, check, depth, factor, width, height, newName, config, json, verbose,
    quiet, help, version]

def takesValue : Switch → Bool
  | json | verbose | quiet | help | version => false
  | _ => true

def ofName? (name : String) : Option Switch := all.find? (·.name == name)

def ofLetter? : Char → Option Switch
  | 'o' => some output
  | 'v' => some verbose
  | 'q' => some quiet
  | 'h' => some help
  | 'V' => some version
  | _ => none

end Switch

inductive Question where
  | deps | parallelize | interchange | fuse | distribute | stripMine | unroll | tile
deriving DecidableEq, Inhabited, Repr

namespace Question

def name : Question → String
  | deps => "deps"
  | parallelize => "parallelize"
  | interchange => "interchange"
  | fuse => "fuse"
  | distribute => "distribute"
  | stripMine => "strip-mine"
  | unroll => "unroll"
  | tile => "tile"

def all : List Question :=
  [deps, parallelize, interchange, fuse, distribute, stripMine, unroll, tile]

def ofName? (name : String) : Option Question := all.find? (·.name == name)

end Question

inductive UsageError where
  | unknown (argument : String)
  | repeated (s : Switch)
  | missingValue (s : Switch)
  | unexpectedValue (s : Switch) (value : String)
  | invalidValue (s : Switch) (value : String)
  | missingFile
deriving DecidableEq, Inhabited, Repr

def UsageError.message : UsageError → String
  | unknown argument => s!"unexpected argument '{argument}' found"
  | repeated s => s!"the argument '--{s.name}' cannot be used multiple times"
  | missingValue s => s!"a value is required for '--{s.name}' but none was supplied"
  | unexpectedValue s value => s!"unexpected value '{value}' for '--{s.name}' found"
  | invalidValue s value => s!"invalid value '{value}' for '--{s.name}'"
  | missingFile => "the following required arguments were not provided: <FILE>"

structure CommandLine where
  input : Option String := none
  output : Option String := none
  function : Option String := none
  loop : Option Nat := none
  check : Question := .deps
  depth : Nat := 1
  factor : Int := 2
  width : Int := 32
  height : Int := 32
  newName : Option String := none
  config : Option String := none
  json : Bool := false
  given : List Switch := []
deriving DecidableEq, Inhabited, Repr

inductive Invocation where
  | run (input : String) (c : CommandLine)
  | help
  | version
deriving DecidableEq, Inhabited, Repr

namespace CommandLine

def digits? (cs : List Char) : Option Nat :=
  if cs.isEmpty || !cs.all Char.isDigit then none
  else some (cs.foldl (fun n d => n * 10 + (d.toNat - 48)) 0)

def count? (text : String) : Option Nat := do
  match text.toList with
  | '+' :: cs => Word.unsigned? (← digits? cs)
  | cs => Word.unsigned? (← digits? cs)

def word? (text : String) : Option Int := do
  match text.toList with
  | '+' :: cs => Word.fit? (← digits? cs)
  | '-' :: cs => Word.fit? (-(← digits? cs : Nat))
  | cs => Word.fit? (← digits? cs)

def path? (text : String) : Option String := if text.isEmpty then none else some text

/-- The settings with the value of an option, if the option can have it. -/
def assign? (c : CommandLine) (s : Switch) (value : String) : Option CommandLine :=
  match s with
  | .output => do return { c with output := some (← path? value) }
  | .function => some { c with function := some value }
  | .loop => do return { c with loop := some (← count? value) }
  | .check => do return { c with check := ← Question.ofName? value }
  | .depth => do return { c with depth := ← count? value }
  | .factor => do return { c with factor := ← word? value }
  | .width => do return { c with width := ← word? value }
  | .height => do return { c with height := ← word? value }
  | .newName => some { c with newName := some value }
  | .config => do return { c with config := some (← path? value) }
  | _ => none

def note (c : CommandLine) (s : Switch) : CommandLine := { c with given := s :: c.given }

def set (c : CommandLine) (s : Switch) (value : String) : Except UsageError CommandLine :=
  match c.assign? s value with
  | none => .error (.invalidValue s value)
  | some c => if c.given.contains s then .error (.repeated s) else .ok (c.note s)

/-- A flag is given at most once, but for the one that is counted. -/
def raise (c : CommandLine) (s : Switch) : Except UsageError CommandLine :=
  if s != .verbose && c.given.contains s then .error (.repeated s)
  else .ok { c.note s with json := c.json || s == .json }

def positional (c : CommandLine) (argument : String) : Except UsageError CommandLine :=
  match c.input with
  | some _ => .error (.unknown argument)
  | none => match path? argument with
    | some path => .ok { c with input := some path }
    | none => .error .missingFile

def finish (c : CommandLine) : Except UsageError Invocation :=
  match c.input with
  | some input => .ok (.run input c)
  | none => .error .missingFile

def positionals : CommandLine → List String → Except UsageError Invocation
  | c, [] => c.finish
  | c, a :: as => do positionals (← c.positional a) as

inductive Step where
  | next (c : CommandLine)
  | await (c : CommandLine) (s : Switch)
  | rest (c : CommandLine)
  | stop (i : Invocation)

def Step.ofFlag (c : CommandLine) : Switch → Except UsageError Step
  | .help => .ok (.stop .help)
  | .version => .ok (.stop .version)
  | s => do return .next (← c.raise s)

def long (c : CommandLine) (argument : String) (cs : List Char) : Except UsageError Step :=
  let name := String.ofList (cs.takeWhile (· != '='))
  let value := match cs.dropWhile (· != '=') with
    | _ :: v => some (String.ofList v)
    | [] => none
  match Switch.ofName? name, value with
  | none, _ => .error (.unknown argument)
  | some s, none => if s.takesValue then .ok (.await c s) else Step.ofFlag c s
  | some s, some v =>
    if s.takesValue then do return .next (← c.set s v) else .error (.unexpectedValue s v)

/-- Options by their letters. What follows a letter that takes a value is that value. -/
def short (argument : String) : CommandLine → List Char → Except UsageError Step
  | c, [] => .ok (.next c)
  | c, l :: ls =>
    match Switch.ofLetter? l with
    | none => .error (.unknown argument)
    | some s =>
      if s.takesValue then
        match ls with
        | [] => .ok (.await c s)
        | '=' :: v => do return .next (← c.set s (String.ofList v))
        | v => do return .next (← c.set s (String.ofList v))
      else do
        match ← Step.ofFlag c s with
        | .next c => short argument c ls
        | step => return step

def step (c : CommandLine) (argument : String) : Except UsageError Step :=
  match argument.toList with
  | ['-', '-'] => .ok (.rest c)
  | '-' :: '-' :: cs => c.long argument cs
  | '-' :: l :: ls => short argument c (l :: ls)
  | _ => do return .next (← c.positional argument)

def looksLikeOption (argument : String) : Bool :=
  match argument.toList with
  | '-' :: _ :: _ => true
  | _ => false

/-- The first argument that is wrong, or that asks for help or for the version, settles the
matter. -/
def parseFrom : CommandLine → List String → Except UsageError Invocation
  | c, [] => c.finish
  | c, a :: as => do
    match ← c.step a with
    | .next c => parseFrom c as
    | .rest c => positionals c as
    | .stop i => return i
    | .await c s =>
      match as with
      | v :: as => if looksLikeOption v then throw (.missingValue s) else parseFrom (← c.set s v) as
      | [] => throw (.missingValue s)

def parse (args : List String) : Except UsageError Invocation := parseFrom {} args

def transformation? (c : CommandLine) : Option Transformation :=
  match c.check with
  | .deps => none
  | .parallelize => some .parallelize
  | .interchange => some (.interchange c.depth)
  | .fuse => some .fuse
  | .distribute => some .distribute
  | .stripMine => some (.stripMine c.factor c.newName)
  | .unroll => some (.unroll c.factor)
  | .tile => some (.tile c.width c.height)

def request (c : CommandLine) : Request := ⟨c.function, c.loop, c.transformation?⟩

end CommandLine

end LoopLegality

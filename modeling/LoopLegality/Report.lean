import LoopLegality.Transformation.Check
import LoopLegality.Transformation.Json

namespace LoopLegality

/-- Which loops to look at, and what to ask about them: one transformation, or else their
dependences. Without a position the outermost loops are meant. -/
structure Request where
  function : Option String := none
  loop : Option Nat := none
  transformation : Option Transformation := none
deriving DecidableEq, Inhabited, Repr

inductive Finding where
  | dependences (summary : DependenceSummary) (descriptions : List String)
  | verdict (transformation : Transformation) (status : Status)
deriving DecidableEq, Repr

structure LoopReport where
  function : String
  line : Nat
  finding : Finding
deriving DecidableEq, Repr

namespace Request

def functions (r : Request) (p : Program) : Except AnalysisError (List Function) :=
  match r.function with
  | none => .ok p.functions
  | some name => match p.function? name with
    | some f => .ok [f]
    | none => .error (.invalid (.noFunction name))

def selections (r : Request) (f : Function) : Except AnalysisError (List Selection) :=
  match r.loop with
  | none => .ok (Selection.outermost f)
  | some k => match (Selection.all f)[k]? with
    | some s => .ok [s]
    | none => .error (.invalid (.noLoop f.name (Selection.all f).length k))

def finding (r : Request) (c : CheckContext) (s : Selection) : Except AnalysisError Finding := do
  match r.transformation with
  | some t => return .verdict t (← t.check c s)
  | none =>
    let a ← c.analyze [s.stmt]
    return .dependences a.summary (a.dependences.map (·.description c.symbols))

def report (r : Request) (c : CheckContext) (s : Selection) : Except AnalysisError LoopReport := do
  return ⟨c.function.name, s.stmt.span.first.line, ← r.finding c s⟩

def reportsOf (r : Request) (p : Program) (config : Config) (f : Function) :
    Except AnalysisError (List LoopReport) := do
  (← r.selections f).mapM (r.report ⟨p, f, config, false⟩)

/-- The answer to a request. Where dependences are asked for, a construct that cannot be
analyzed fails the whole request. -/
def run (r : Request) (p : Program) (config : Config) : Except AnalysisError (List LoopReport) := do
  return (← (← r.functions p).mapM (r.reportsOf p config)).flatten

end Request

namespace LoopReport

def passed (r : LoopReport) : Bool :=
  match r.finding with
  | .dependences .. => true
  | .verdict _ status => status.isOk

def indented (n : Nat) (line : String) : String := String.ofList (List.replicate n ' ') ++ line

def lines (r : LoopReport) : List String :=
  s!"function '{r.function}', loop at line {r.line}:" :: match r.finding with
    | .dependences summary descriptions => (summary.lines ++ descriptions).map (indented 2)
    | .verdict t status => indented 2 (t.text ++ ":") :: status.lines.map (indented 4)

def text (r : LoopReport) : String := String.join (r.lines.map (· ++ "\n"))

end LoopReport

namespace Span

def toJson (s : Span) : JsonValue :=
  .object [("start_line", .nat s.first.line), ("start_column", .nat s.first.column),
    ("end_line", .nat s.last.line), ("end_column", .nat s.last.column),
    ("start_offset", .nat s.first.offset), ("end_offset", .nat s.last.offset)]

end Span

def Diagnostic.toJson (d : Diagnostic) : JsonValue :=
  .object [("severity", .text d.severity.name), ("message", .text d.message),
    ("span", .optional Span.toJson d.span)]

def Status.toJson (s : Status) : JsonValue :=
  .object [("diagnostics", .arr (s.diagnostics.map Diagnostic.toJson))]

def DependenceSummary.toJson (s : DependenceSummary) : JsonValue :=
  .object [("num_accesses", .nat s.accesses), ("num_dependences", .nat s.dependences),
    ("num_flow", .nat s.flow), ("num_anti", .nat s.anti), ("num_output", .nat s.output),
    ("num_input", .nat s.input), ("num_loop_carried", .nat s.carried),
    ("num_loop_independent", .nat s.independent), ("max_depth", .nat s.maxDepth)]

namespace LoopReport

def toJson (r : LoopReport) : JsonValue :=
  .object <| [("function", .text r.function), ("line", .nat r.line)] ++ match r.finding with
    | .dependences summary descriptions =>
      [("summary", summary.toJson), ("dependences", .arr (descriptions.map .text)),
        ("transformation", .null), ("status", .null)]
    | .verdict t status =>
      [("summary", .null), ("dependences", .arr []), ("transformation", t.toJson),
        ("status", status.toJson)]

end LoopReport

end LoopLegality

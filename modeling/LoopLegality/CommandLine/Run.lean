import LoopLegality.CommandLine
import LoopLegality.Config.Json
import LoopLegality.Grammar.Program
import LoopLegality.Text.Quoted

namespace LoopLegality

/-- How files are read and written. An error is the text that the system gives. -/
structure Files (m : Type → Type) where
  read : String → m (Except String String)
  write : String → String → m (Except String Unit)

inductive Failure where
  | usage (e : UsageError)
  | configFile (path cause : String)
  | configText (path : String)
  | sourceFile (path cause : String)
  | source (path : String) (e : SourceError)
  | analysis (e : AnalysisError)
  | outputFile (path cause : String)
deriving DecidableEq, Repr

namespace Failure

def causes : Failure → List String
  | usage e => [e.message]
  | configFile path cause =>
    ["Failed to load config: " ++ Text.quoted path, "I/O error: " ++ cause, cause]
  | configText path =>
    ["Failed to load config: " ++ Text.quoted path, "configuration error: not a configuration"]
  | sourceFile path cause => ["failed to read " ++ path, cause]
  | source path e => ["failed to parse " ++ path, e.message, e.detail]
  | analysis e => ["Analysis failed", e.message] ++ match e with
    | .unsupported u => [u.text]
    | _ => []
  | outputFile path cause => ["Failed to write output file: " ++ Text.quoted path, cause]

def message (f : Failure) : String := ": ".intercalate f.causes

/-- The status that the run ends with. An overflow ends it where it arises. -/
def status : Failure → UInt32
  | analysis .overflow => 101
  | _ => 2

def report : Failure → String
  | analysis .overflow => "panicked: " ++ AnalysisError.message .overflow
  | f => "error: " ++ f.message

end Failure

structure Success where
  passed : Bool
  printed : String
deriving DecidableEq, Inhabited, Repr

namespace CommandLine

def version : String := "loopsafe 0.1.0\n"

def help : String := String.join (List.map (· ++ "\n")
  ["Dependence analysis and safety checks for C loop transformations", "",
    "Usage: loopsafe [OPTIONS] <FILE>", "",
    "Arguments:",
    "  <FILE>  C source file to analyze", "",
    "Options:",
    "  -o, --output <FILE>    Output file (defaults to stdout)",
    "      --function <NAME>  Only analyze this function",
    "      --loop <N>         Only analyze the N-th loop of the function (preorder, 0-based)",
    "      --check <CHECK>    What to check [default: deps] [possible values: " ++
      ", ".intercalate (Question.all.map Question.name) ++ "]",
    "      --depth <DEPTH>    Nest depth of the loop to interchange with [default: 1]",
    "      --factor <FACTOR>  Strip-mine or unroll factor [default: 2]",
    "      --width <WIDTH>    Tile width [default: 32]",
    "      --height <HEIGHT>  Tile height [default: 32]",
    "      --new-name <NAME>  Name of the new strip index (strip-mine)",
    "      --config <FILE>    Analysis configuration (JSON)",
    "      --json             Print the report as JSON",
    "  -v, --verbose...       Verbose output (-v, -vv, -vvv)",
    "  -q, --quiet            Quiet mode (suppress warnings)",
    "  -h, --help             Print help",
    "  -V, --version          Print version"])

def render (json : Bool) (reports : List LoopReport) : String :=
  if json then (JsonValue.arr (reports.map LoopReport.toJson)).pretty 0
  else if reports.isEmpty then "no loops selected"
  else "\n".intercalate (reports.map (·.text))

def reports (c : CommandLine) (input source : String) (config : Config) :
    Except Failure (List LoopReport) := do
  let program ← (Program.parse source).mapError (.source input)
  (c.request.run program config).mapError .analysis

variable {m : Type → Type} [Monad m]

def loadConfig (files : Files m) (c : CommandLine) : ExceptT Failure m Config := do
  match c.config with
  | none => return .default
  | some path =>
    match ← files.read path with
    | .error cause => throw (.configFile path cause)
    | .ok text => match Config.read? text with
      | some config => return config
      | none => throw (.configText path)

def loadSource (files : Files m) (input : String) : ExceptT Failure m String := do
  match ← files.read input with
  | .error cause => throw (.sourceFile input cause)
  | .ok text => return text

def emit (files : Files m) (c : CommandLine) (text : String) : ExceptT Failure m String := do
  match c.output with
  | none => return text ++ "\n"
  | some path =>
    match ← files.write path text with
    | .error cause => throw (.outputFile path cause)
    | .ok _ => return ""

/-- The configuration is read before the source. -/
def execute (files : Files m) (input : String) (c : CommandLine) : ExceptT Failure m Success := do
  let config ← loadConfig files c
  let source ← loadSource files input
  let reports ← c.reports input source config
  return ⟨reports.all LoopReport.passed, ← emit files c (render c.json reports)⟩

def run (files : Files m) (args : List String) : ExceptT Failure m Success := do
  match parse args with
  | .error e => throw (.usage e)
  | .ok .help => return ⟨true, help⟩
  | .ok .version => return ⟨true, version⟩
  | .ok (.run input c) => execute files input c

end CommandLine

end LoopLegality

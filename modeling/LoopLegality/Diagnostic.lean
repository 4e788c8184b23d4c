import LoopLegality.Span

namespace LoopLegality

inductive Severity where
  | warning | error | fatal
deriving DecidableEq, Inhabited, Repr

namespace Severity

def name : Severity → String
  | warning => "warning"
  | error => "error"
  | fatal => "fatal"

def rank : Severity → Nat
  | warning => 0
  | error => 1
  | fatal => 2

def max (s t : Severity) : Severity := if s.rank ≤ t.rank then t else s

end Severity

structure Diagnostic where
  severity : Severity
  message : String
  span : Option Span := none
deriving DecidableEq, Inhabited, Repr

namespace Diagnostic

def warning (message : String) : Diagnostic := ⟨.warning, message, none⟩

def error (message : String) : Diagnostic := ⟨.error, message, none⟩

def fatal (message : String) : Diagnostic := ⟨.fatal, message, none⟩

def located (d : Diagnostic) (span : Span) : Diagnostic :=
  if span.isNone then d else { d with span := some span }

def text (d : Diagnostic) : String :=
  match d.span with
  | some span => s!"{d.severity.name}: {d.message} ({span.text})"
  | none => s!"{d.severity.name}: {d.message}"

end Diagnostic

structure Status where
  diagnostics : List Diagnostic
deriving DecidableEq, Inhabited, Repr

namespace Status

def clean : Status := ⟨[]⟩

def add (s : Status) (d : Diagnostic) : Status := ⟨s.diagnostics ++ [d]⟩

def severity? (s : Status) : Option Severity :=
  match s.diagnostics.map (·.severity) with
  | [] => none
  | d :: ds => some (ds.foldl Severity.max d)

def hasFatal (s : Status) : Bool := s.diagnostics.any (·.severity == .fatal)

def hasError (s : Status) : Bool := s.diagnostics.any (·.severity != .warning)

def isOk (s : Status) : Bool := !s.hasError

def contains (s : Status) (message : String) : Bool := s.diagnostics.any (·.message == message)

def lines (s : Status) : List String :=
  if s.diagnostics.isEmpty then ["ok"] else s.diagnostics.map (·.text)

def text (s : Status) : String := "\n".intercalate s.lines

end Status

end LoopLegality

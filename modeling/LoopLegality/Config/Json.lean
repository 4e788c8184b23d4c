import LoopLegality.Config
import LoopLegality.Json.Read
import LoopLegality.Word

namespace LoopLegality.Config

def texts? : JsonValue → Option (List String)
  | .arr items => items.mapM fun v => match v with
    | .str s => s
    | _ => none
  | _ => none

def bool? : JsonValue → Option Bool
  | .bool b => some b
  | _ => none

def limit? : JsonValue → Option (Option Nat)
  | .null => some none
  | .int n => (Word.unsigned? n).map some
  | _ => none

def setWhitelist? (c : Config) (v : JsonValue) : Option Config := do
  return { c with whitelist := nameSet (← texts? v) }

def setStrict? (c : Config) (v : JsonValue) : Option Config := do
  return { c with strictSubscripts := ← bool? v }

def setPropagate? (c : Config) (v : JsonValue) : Option Config := do
  return { c with propagateConstants := ← bool? v }

def setLimit? (c : Config) (v : JsonValue) : Option Config := do
  return { c with maxAccesses := ← limit? v }

def settings : List (String × (Config → JsonValue → Option Config)) :=
  [("function_whitelist", setWhitelist?), ("strict_subscripts", setStrict?),
    ("propagate_constants", setPropagate?), ("max_accesses", setLimit?)]

/-- A setting is named at most once, and other names are left alone. -/
def setFields? : List (Option String × JsonValue) → List String → Config → Option Config
  | [], _, c => some c
  | (none, _) :: _, _, _ => none
  | (some k, v) :: fs, seen, c =>
    match settings.lookup k with
    | none => setFields? fs seen c
    | some set => if seen.contains k then none else do setFields? fs (k :: seen) (← set c v)

def setItems? : List JsonValue → List (String × (Config → JsonValue → Option Config)) →
    Config → Option Config
  | [], _, c => some c
  | _ :: _, [], _ => none
  | v :: vs, (_, set) :: rest, c => do setItems? vs rest (← set c v)

def ofJson? : JsonValue → Option Config
  | .obj fields => setFields? fields [] .default
  | .arr items => setItems? items settings .default
  | _ => none

def read? (text : String) : Option Config := do ofJson? (← JsonValue.read? text)

def toJson (c : Config) : JsonValue :=
  .object [("function_whitelist", .arr (c.whitelist.map .text)),
    ("strict_subscripts", .bool c.strictSubscripts),
    ("propagate_constants", .bool c.propagateConstants),
    ("max_accesses", .optional .nat c.maxAccesses)]

def text (c : Config) : String := c.toJson.pretty 0

end LoopLegality.Config

import LoopLegality.Json
import LoopLegality.Transformation
import LoopLegality.Word

namespace LoopLegality.Transformation

def fields : Transformation → List (String × JsonValue)
  | interchange depth => [("depth", .nat depth)]
  | stripMine factor newName => [("factor", .int factor), ("new_name", .optional .text newName)]
  | unroll factor => [("factor", .int factor)]
  | tile width height => [("width", .int width), ("height", .int height)]
  | _ => []

def toJson (t : Transformation) : JsonValue :=
  .object (("transformation", .text t.name) :: t.fields)

def word? : Option JsonValue → Option Int
  | some (.int n) => Word.fit? n
  | _ => none

def count? : Option JsonValue → Option Nat
  | some (.int n) => Word.unsigned? n
  | _ => none

def name? : Option JsonValue → Option (Option String)
  | none | some .null => some none
  | some (.str (some s)) => some (some s)
  | _ => none

def ofJson? : JsonValue → Option Transformation
  | .obj fields => do
    let field (key : String) := fields.lookup (some key)
    match ← (field "transformation") with
    | .str (some "parallelize") => return parallelize
    | .str (some "interchange") => return interchange (← count? (field "depth"))
    | .str (some "fuse") => return fuse
    | .str (some "distribute") => return distribute
    | .str (some "strip-mine") =>
      return stripMine (← word? (field "factor")) (← name? (field "new_name"))
    | .str (some "unroll") => return unroll (← word? (field "factor"))
    | .str (some "tile") => return tile (← word? (field "width")) (← word? (field "height"))
    | _ => none
  | _ => none

end LoopLegality.Transformation

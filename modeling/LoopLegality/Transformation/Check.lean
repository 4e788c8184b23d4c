import LoopLegality.Fusion
import LoopLegality.Transformation
import LoopLegality.Transformation.Context

namespace LoopLegality

namespace Transformation

def require (b : Bool) (o : Obstacle) : List Diagnostic := if b then [] else [o.diagnostic]

def parameterFindings (c : CheckContext) (l : ForLoop) : Transformation → List Diagnostic
  | interchange depth =>
    if depth = 0 then [Obstacle.interchangeWithItself.diagnostic]
    else require (l.descend? depth).isSome (.noLoopAtDepth depth)
  | stripMine factor newName =>
    if factor ≤ 0 then [Obstacle.stripFactorNotPositive.diagnostic]
    else require (!newName.any c.isNameVisible) .nameTaken ++
      match CountedLoop.ofHeader? l.header with
      | none => [Obstacle.notCounted.diagnostic]
      | some counted =>
        require (factor.tmod counted.step == 0 && counted.step < factor) .stripFactorNotMultiple
  | unroll factor => require (0 < factor) .unrollFactorNotPositive
  | tile width height =>
    if height < 1 then [Obstacle.heightNotPositive.diagnostic]
    else require (1 ≤ width) .widthNotPositive
  | _ => []

def jumpFindings (l : ForLoop) : List Diagnostic :=
  match l.body.firstJump? with
  | some s => [(Obstacle.jump s.describe).locatedAt s.span]
  | none => []

def unrollFinding? (c : CheckContext) (l : ForLoop) (factor : Int) : Option Diagnostic :=
  if l.body.isEmpty then some Obstacle.emptyBody.diagnostic
  else match CountedLoop.ofHeader? l.header with
    | none => some Obstacle.notCounted.diagnostic
    | some counted =>
      let env := c.envAt counted.id
      match l.firstUnsupported? with
      | some s => some ((Obstacle.notRepeatable s.describe).locatedAt s.span)
      | none =>
        if (counted.upperBound? env).isNone then some Obstacle.upperNotConstant.diagnostic
        else if (counted.lowerBound? env).isNone then some Obstacle.lowerNotConstant.diagnostic
        else if l.bodyWrites counted.index then some Obstacle.indexWritten.diagnostic
        else if (counted.tripCount? env).getD 0 < factor then
          some Obstacle.tooFewIterations.diagnostic
        else none

def fusionFindings (c : CheckContext) (f : Fusion) : List Diagnostic :=
  match f.nameConflict? c.symbols with
  | some name => [(Obstacle.nameConflict name).diagnostic]
  | none => require (f.first.site.pragmas == f.second.site.pragmas) .pragmasDiffer

def formFindings (c : CheckContext) (s : Selection) (l : ForLoop) :
    Transformation → List Diagnostic
  | parallelize => require l.site.pragmas.isEmpty .hasPragma
  | interchange depth => require (depth < l.nest.length) .imperfectNest
  | fuse => match Fusion.ofSelection? s with
    | some f => fusionFindings c f
    | none => [Obstacle.noSecondLoop.diagnostic]
  | distribute => match l.body with
    | .compound ss _ => require (2 ≤ ss.length) .bodyNotSeveral
    | _ => [Obstacle.bodyNotCompound.diagnostic]
  | stripMine .. => []
  | unroll factor => (unrollFinding? c l factor).toList
  | tile .. => require l.site.pragmas.isEmpty .nestHasPragma ++
      require (2 ≤ l.nest.length) .notNested

def region (s : Selection) (l : ForLoop) : Transformation → ForLoop
  | fuse => ((Fusion.ofSelection? s).map Fusion.fused).getD l
  | _ => l

def interchangeFindings (a : DependenceAnalysis) (depth : Nat) :
    Except AnalysisError (List Diagnostic) := do
  let spanning := a.dependences.filter (depth < ·.direction.length)
  return require (← interchangeable 0 depth spanning) (.interchangeReverses depth)

def preventing (a : DependenceAnalysis) (p : Dependence → Bool) (o : Obstacle)
    (place : Dependence → Span) : List Diagnostic :=
  ((a.dependences.find? p).map fun d => o.locatedAt (place d)).toList

/-- A dependence from the second body back into the first. -/
def preventsFusion (first : ForLoop) (d : Dependence) : Bool :=
  let n := first.body.statements.length
  d.runsForward && n ≤ d.source.topLevel && d.sink.topLevel < n

/-- A dependence from a later statement back to an earlier one. -/
def preventsDistribution (d : Dependence) : Bool :=
  d.runsForward && d.sink.topLevel < d.source.topLevel

def dependenceFindings (l : ForLoop) (a : DependenceAnalysis) :
    Transformation → Except AnalysisError (List Diagnostic)
  | parallelize => .ok (preventing a (·.isTrueAt 1) .carriesDependence (·.sink.span))
  | interchange depth => interchangeFindings a depth
  | fuse => .ok (preventing a (preventsFusion l) .fusionReverses (·.sink.span))
  | distribute =>
    .ok (preventing a preventsDistribution .distributionReverses (·.source.span))
  | tile .. => interchangeFindings a 1
  | stripMine .. | unroll _ => .ok []

def regionFindings (c : CheckContext) (s : Selection) (l : ForLoop) (t : Transformation) :
    Except AnalysisError (List Diagnostic) :=
  match c.analyze [(t.region s l).stmt] with
  | .ok a => t.dependenceFindings l a
  | .error (.unsupported u) => .ok [(Obstacle.notAnalyzed u.cause.message).locatedAt u.span]
  | .error e => .error e

/-- The check of a loop: parameters, then shape, then dependences. A fatal finding ends it. -/
def checkLoop (c : CheckContext) (s : Selection) (l : ForLoop) (t : Transformation) :
    Except AnalysisError Status := do
  if c.cancelled then throw .cancelled
  let parameters : Status := ⟨t.parameterFindings c l⟩
  if parameters.hasFatal then return parameters
  let form : Status := ⟨parameters.diagnostics ++ jumpFindings l ++ t.formFindings c s l⟩
  if form.hasFatal then return form
  return ⟨form.diagnostics ++ (← t.regionFindings c s l)⟩

def check (c : CheckContext) (s : Selection) (t : Transformation) :
    Except AnalysisError Status :=
  match s.stmt.forLoop? with
  | some l => t.checkLoop c s l
  | none => .error (.invalid (.notForLoop s.stmt.describe s.stmt.span.first.line))

end Transformation

end LoopLegality

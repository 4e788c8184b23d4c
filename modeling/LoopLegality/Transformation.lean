import LoopLegality.Diagnostic

namespace LoopLegality

inductive Transformation where
  | parallelize
  /-- Exchange the loop with the one `depth` levels inside it. -/
  | interchange (depth : Nat)
  /-- Join the loop with the loop after it. -/
  | fuse
  /-- Give each statement of the body a loop of its own. -/
  | distribute
  /-- Cut the iterations into strips, counted by a new index. -/
  | stripMine (factor : Int) (newName : Option String)
  | unroll (factor : Int)
  /-- Cut two nested loops into tiles. -/
  | tile (width height : Int)
deriving DecidableEq, Inhabited, Repr

namespace Transformation

def name : Transformation → String
  | parallelize => "parallelize"
  | interchange _ => "interchange"
  | fuse => "fuse"
  | distribute => "distribute"
  | stripMine .. => "strip-mine"
  | unroll _ => "unroll"
  | tile .. => "tile"

def text : Transformation → String
  | interchange depth => s!"interchange (depth {depth})"
  | stripMine factor _ => s!"strip-mine (factor {factor})"
  | unroll factor => s!"unroll (factor {factor})"
  | tile width height => s!"tile ({height}x{width})"
  | t => t.name

end Transformation

inductive Obstacle where
  | jump (description : String)
  | notAnalyzed (cause : String)
  | hasPragma
  | carriesDependence
  | interchangeWithItself
  | noLoopAtDepth (depth : Nat)
  | imperfectNest
  | interchangeReverses (depth : Nat)
  | noSecondLoop
  | nameConflict (name : String)
  | pragmasDiffer
  | fusionReverses
  | bodyNotCompound
  | bodyNotSeveral
  | distributionReverses
  | stripFactorNotPositive
  | nameTaken
  | notCounted
  | stripFactorNotMultiple
  | unrollFactorNotPositive
  | emptyBody
  | notRepeatable (description : String)
  | upperNotConstant
  | lowerNotConstant
  | indexWritten
  | tooFewIterations
  | heightNotPositive
  | widthNotPositive
  | nestHasPragma
  | notNested
deriving DecidableEq, Inhabited, Repr

namespace Obstacle

def severity : Obstacle → Severity
  | nameTaken => .warning
  | jump _ | notAnalyzed _ | carriesDependence | interchangeReverses _ | nameConflict _
  | fusionReverses | distributionReverses | nestHasPragma => .error
  | _ => .fatal

def message : Obstacle → String
  | jump description => s!"Cannot refactor: the loop body contains a {description}."
  | notAnalyzed cause => s!"Dependences could not be analyzed: {cause}"
  | hasPragma => "When a loop has a pragma associated with it, it cannot have another pragma " ++
      "added to it."
  | carriesDependence => "This loop cannot be parallelized because it carries a dependence."
  | interchangeWithItself =>
    "A loop cannot be interchanged with itself; the depth must be at least 1."
  | noLoopAtDepth depth => s!"There is no for-loop at exchange depth: {depth}"
  | imperfectNest => "Only perfectly nested loops can be interchanged."
  | interchangeReverses depth =>
    s!"Interchanging the selected loop with the loop at depth {depth} will change the " ++
      "dependence structure of the loop nest."
  | noSecondLoop => "There must be two for loops for fusion to be possible."
  | nameConflict name => s!"A definition of \"{name}\" in the first loop may shadow \"{name}\" " ++
      "used in the second loop"
  | pragmasDiffer => "When a loop has a pragma associated with it, it cannot be fused unless " ++
      "both loops have identical pragmas."
  | fusionReverses => "A dependence in the loops is fusion-preventing"
  | bodyNotCompound =>
    "Loop body is not a compound statement, so distribution cannot be performed."
  | bodyNotSeveral => "Loop distribution can only be applied if there is more than one " ++
      "statement in the loop body."
  | distributionReverses =>
    "Distribution cannot be performed because the loop carries a dependence."
  | stripFactorNotPositive => "Invalid strip factor (<= 0)."
  | nameTaken => "Index variable name already exists in scope."
  | notCounted => "Loop form not supported"
  | stripFactorNotMultiple => "Strip mine factor must be greater than and divisible by the " ++
      "intended loop's iteration factor."
  | unrollFactorNotPositive => "Invalid loop unroll factor! (<= 0)"
  | emptyBody => "Loop body is empty -- nothing to unroll!"
  | notRepeatable description => s!"Loop contains unsupported statement: {description}"
  | upperNotConstant => "Upper bound is not a constant value. Cannot perform unrolling!"
  | lowerNotConstant => "Lower bound is not a constant value. Cannot perform unrolling!"
  | indexWritten => "Loop index variable is changed in the loop body. Cannot perform unrolling!"
  | tooFewIterations => "Can't unroll loop more times than the loop runs!"
  | heightNotPositive => "Height must be at least 1"
  | widthNotPositive => "Width must be at least 1"
  | nestHasPragma => "This loop has a pragma associated with it."
  | notNested => "There must be two nested loops to perform loop tiling."

def diagnostic (o : Obstacle) : Diagnostic := ⟨o.severity, o.message, none⟩

def locatedAt (o : Obstacle) (span : Span) : Diagnostic := o.diagnostic.located span

end Obstacle

end LoopLegality

/-
What a pass sees and what it gives. A pass is a function of one unit, of the symbols it can ask for and of the project's
rules.
-/
import ClosurePipeline.Diagnostic
import ClosurePipeline.Program.Symbol
import ClosurePipeline.Project.Policy
import ClosurePipeline.SourceMap.Fragment

namespace ClosurePipeline.Pass

/-- what a pass sees besides the unit -/
structure Context where
  /-- the declaration a name in a file stands for -/
  symbol? : Path → String → Option Symbol
  policy : Rules

/-- what a pass makes of a unit -/
structure Output where
  text : String
  /-- how the text leads back to the unit's; nothing if they are the same -/
  fragment : Option Fragment := none
  diagnostics : List Diagnostic := []
  externs : Option String := none
deriving DecidableEq, Repr

end ClosurePipeline.Pass

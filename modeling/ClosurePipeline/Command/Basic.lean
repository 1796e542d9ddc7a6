/-
What a command line asks for: a command with its arguments, and the options every command takes.
-/
import ClosurePipeline.Path.Basic

namespace ClosurePipeline

/-- a request to transform files; what it leaves open comes from the configuration -/
structure TransformRequest where
  files : List Path := []
  outDir : Option Path := none
  externsOut : Option Path := none
  noGoogModule : Bool := false
  es5 : Bool := false
  noDownlevel : Bool := false
  noClosurize : Bool := false
deriving DecidableEq, Repr

/-- what to do -/
inductive Command where
  | version
  /-- find the entry module, from this main file if one is given -/
  | entry (main : Option Path)
  | transform (request : TransformRequest)
deriving DecidableEq, Repr

/-- a command and the options every command takes -/
structure Invocation where
  command : Command
  /-- results are JSON -/
  json : Bool := false
  /-- the directory to work in -/
  cwd : Option Path := none
  /-- the configuration file -/
  config : Option Path := none
deriving DecidableEq, Repr

/-- why a command line runs no command -/
inductive Stop where
  /-- it cannot be understood -/
  | usage
  | help
  | version
deriving DecidableEq, Repr

end ClosurePipeline

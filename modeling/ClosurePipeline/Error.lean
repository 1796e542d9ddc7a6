/-
What can go wrong with a whole operation, by cause. The wording of each cause, and its stable code, are given in one
place.
-/
import ClosurePipeline.Pass.Basic
import ClosurePipeline.Path.Basic
import ClosurePipeline.SourceMap.Document

namespace ClosurePipeline

/-- why a file operation fails -/
inductive IoFault where
  /-- the host takes no files -/
  | cannotWrite (path : Path)
  | notFound
  | busy
  | alreadyExists
  | notDirectory
  | isDirectory
  | invalidName
  | nameTooLong
  | tooManyLinks
deriving DecidableEq, Repr

/-- the wording of a fault; the file system's own carry their number -/
def IoFault.message : IoFault → String
  | cannotWrite path => "host cannot write " ++ path.text
  | notFound => "No such file or directory (os error 2)"
  | busy => "Device or resource busy (os error 16)"
  | alreadyExists => "File exists (os error 17)"
  | notDirectory => "Not a directory (os error 20)"
  | isDirectory => "Is a directory (os error 21)"
  | invalidName => "file name contained an unexpected NUL byte"
  | nameTooLong => "File name too long (os error 36)"
  | tooManyLinks => "Too many levels of symbolic links (os error 40)"

/-- why an operation fails -/
inductive Error where
  /-- not exactly one bootstrap call with a bare name -/
  | ambiguousBootstrap (main : Path) (found : Nat)
  /-- the bootstrapped name leads to no class -/
  | unresolvedSymbol (main : Path) (symbol : String)
  | passFailed (pass : Pass) (file : Path) (fault : Pass.Fault)
  | sourceMap (path : Path) (cause : SourceMap.Fault)
  | fileNotFound (path : Path)
  | io (fault : IoFault)
  | configUnreadable (path : Path)
  | configInvalid (path : Path)
deriving DecidableEq, Repr

namespace Error

/-- the stable code of an error -/
def code : Error → String
  | ambiguousBootstrap .. => "NGPASS_AMBIGUOUS_BOOTSTRAP"
  | unresolvedSymbol .. => "NGPASS_UNRESOLVED_SYMBOL"
  | passFailed .. => "NGPASS_PASS_INTERNAL"
  | sourceMap .. => "NGPASS_SOURCE_MAP"
  | fileNotFound .. => "NGPASS_FILE_NOT_FOUND"
  | io .. => "NGPASS_IO"
  | configUnreadable .. => "NGPASS_CONFIG_READ"
  | configInvalid .. => "NGPASS_CONFIG_PARSE"

/-- the wording of an error -/
def message : Error → String
  | ambiguousBootstrap main found =>
    "Tried to find bootstrap code in " ++ main.text ++ ", but found " ++ toString found ++
    " statically analyzable call sites. Specify either statically analyzable bootstrap code or an explicit entryModule."
  | unresolvedSymbol main symbol =>
    "Could not trace `" ++ symbol ++ "` from " ++ main.text ++
      " to a class declaration. Specify an explicit entryModule."
  | passFailed pass file fault => pass.name ++ " pass failed on " ++ file.text ++ ": " ++ fault.display
  | sourceMap path cause => "Invalid source map for " ++ path.text ++ ": " ++ cause.message
  | fileNotFound path => "File not found: " ++ path.text
  | io fault => "IO error: " ++ fault.message
  | configUnreadable path => "Failed to read config at " ++ path.text
  | configInvalid path => "Failed to parse config at " ++ path.text

end Error

end ClosurePipeline

/-
The policy of a project: which files the passes leave alone, where warnings are dropped, and how paths turn into Closure
module names and ids.

- `Policy.moduleName`: names are dotted paths below the output directory for outputs, below the root for everything
  else. A relative specifier is read from the directory of the file it stands in, and a package is named by its
  specifier;
- `Policy.moduleId`: the path below the root.

Passes and pipelines know a policy only by its answers, the `Rules`.
-/
import ClosurePipeline.Path.Naming
import ClosurePipeline.Path.Normal

namespace ClosurePipeline

/-- what passes and pipelines ask about a project -/
structure Rules where
  /-- the passes leave this file alone -/
  skips : Path → Bool
  /-- warnings on this file are dropped -/
  ignoresWarnings : Path → Bool
  /-- the module name of a specifier, as written in a file -/
  moduleName : Path → String → String
  /-- the module id of a file -/
  moduleId : Path → String

/-- the directories and path lists of a project, in normal form -/
structure Policy where
  rootDir : Path
  outDir : Option Path := none
  /-- files below these are left alone -/
  skipPaths : List Path := []
  /-- warnings on files below these are dropped -/
  ignoreWarnings : List Path := []
deriving DecidableEq, Repr

namespace Policy

/-- the policy of directories and lists as given -/
def ofPaths (rootDir : Path) (outDir : Option Path) (skipPaths ignoreWarnings : List Path) : Policy :=
  ⟨rootDir.normalize, outDir.map Path.normalize, skipPaths.map Path.normalize, ignoreWarnings.map Path.normalize⟩

/-- the passes leave this file alone: it is listed, or it is a declaration file from outside the project -/
def skips (e : Policy) (path : Path) : Bool :=
  e.skipPaths.any path.startsWith || (path.isDeclarationFile && !path.startsWith e.rootDir)

/-- warnings on this file are dropped -/
def ignoresWarnings (e : Policy) (path : Path) : Bool := e.ignoreWarnings.any path.startsWith

/-- the directory names are relative to -/
def namingBase (e : Policy) (path : Path) : Path :=
  match e.outDir with
  | some out => if path.startsWith out then out else e.rootDir
  | none => e.rootDir

/-- a character that may stand in a module name -/
def isNameChar (c : Char) : Bool := c.isAlphanum || c = '_' || c = '$'

/-- a segment of a path as a segment of a module name: other characters become underscores, and one goes in front of a
digit -/
def nameSegment (cs : List Char) : List Char :=
  if cs = ['.', '.'] then ['_', '_']
  else
    let out := cs.map fun c => if isNameChar c then c else '_'
    if (out.head?.map Char.isDigit).getD false then '_' :: out else out

/-- a path with slashes as a dotted module name -/
def dottedName (path : String) : String :=
  let segments := (path.toList.splitOn '/').filter fun s => s ≠ [] && s ≠ ['.']
  String.ofList (['.'].intercalate (segments.map nameSegment))

/-- the module name of a path that names a place -/
def placeName (e : Policy) (path : Path) : String :=
  dottedName ((e.namingBase path).relativeTo path).withoutSourceEnding.toSlash

/-- the module name of a specifier, as written in `context` -/
def moduleName (e : Policy) (context : Path) (specifier : String) : String :=
  let path : Path := ⟨specifier⟩
  if path.isAbsolute then e.placeName path.normalize
  else if specifier.toList.head? = some '.' then e.placeName ((context.parent?.getD .empty).join path).normalize
  else dottedName path.withoutSourceEnding.toSlash

/-- the module id of a file -/
def moduleId (e : Policy) (path : Path) : String := (e.rootDir.relativeTo path).toSlash

/-- the answers of a policy -/
def rules (e : Policy) : Rules := ⟨e.skips, e.ignoresWarnings, e.moduleName, e.moduleId⟩

instance : Coe Policy Rules := ⟨rules⟩

end Policy

end ClosurePipeline

/-
The configuration of a project, read from a JSON file. Every field has a default, so an empty object is a configuration.
Paths in the file are read from the file's directory; the entry module is a name and stays as it is.

- `Config.ofJson?`: the configuration a JSON value holds;
- `Config.load`: the configuration in a file on a disk;
- `Config.nearest`: the configuration that applies in a directory.
-/
import ClosurePipeline.Disk.Basic
import ClosurePipeline.Json.Reader
import ClosurePipeline.Json.Record
import ClosurePipeline.Path.Ancestors
import ClosurePipeline.Project.Policy

namespace ClosurePipeline

/-- the settings of a project -/
structure Config where
  rootDir : Path := ⟨"."⟩
  /-- the file with the bootstrap call -/
  main : Option Path := none
  /-- the entry, given instead of looked for -/
  entryModule : Option String := none
  outDir : Option Path := none
  passes : Pass.Selection := {}
  googModule : Bool := true
  es5 : Bool := false
  ignoreWarnings : List Path := []
  skipPaths : List Path := []
  /-- the file for all externs -/
  externsOut : Option Path := none
deriving DecidableEq, Repr

namespace Config

/-- a path -/
def readPath? (j : Json) : Option Path := j.asStr?.map Path.mk

/-- the members of a selection of passes, in order -/
def selectionNames : List String := ["downlevelDecorators", "closurize"]

/-- the selection of passes a JSON value holds -/
def readSelection? (j : Json) : Option Pass.Selection := do
  match ← j.fields? selectionNames with
  | [downlevel, closurize] =>
    some ⟨← Json.fieldOr true Json.asBool? downlevel, ← Json.fieldOr true Json.asBool? closurize⟩
  | _ => none

/-- the members of a configuration, in order -/
def memberNames : List String :=
  ["rootDir", "main", "entryModule", "outDir", "passes", "googmodule", "es5Mode", "ignoreWarnings", "skipPaths",
    "externsOut"]

/-- the configuration a JSON value holds -/
def ofJson? (j : Json) : Option Config := do
  match ← j.fields? memberNames with
  | [rootDir, main, entryModule, outDir, passes, googModule, es5, ignoreWarnings, skipPaths, externsOut] =>
    some {
      rootDir := ← Json.fieldOr ⟨"."⟩ readPath? rootDir
      main := ← Json.fieldOr none (Json.asNullable? readPath?) main
      entryModule := ← Json.fieldOr none (Json.asNullable? Json.asStr?) entryModule
      outDir := ← Json.fieldOr none (Json.asNullable? readPath?) outDir
      passes := ← Json.fieldOr {} readSelection? passes
      googModule := ← Json.fieldOr true Json.asBool? googModule
      es5 := ← Json.fieldOr false Json.asBool? es5
      ignoreWarnings := ← Json.fieldOr [] (Json.asList? readPath?) ignoreWarnings
      skipPaths := ← Json.fieldOr [] (Json.asList? readPath?) skipPaths
      externsOut := ← Json.fieldOr none (Json.asNullable? readPath?) externsOut }
  | _ => none

/-- every path read from directory `base`, in normal form -/
def resolveFrom (c : Config) (base : Path) : Config :=
  let resolve (p : Path) : Path := (base.join p).normalize
  { c with
    rootDir := resolve c.rootDir
    main := c.main.map resolve
    outDir := c.outDir.map resolve
    externsOut := c.externsOut.map resolve
    ignoreWarnings := c.ignoreWarnings.map resolve
    skipPaths := c.skipPaths.map resolve }

/-- the configuration in a file -/
def load (d : Disk) (path : Path) : Except Error Config :=
  match d.readText? path with
  | none => .error (.configUnreadable path)
  | some text =>
    match (Json.parse? text).bind ofJson? with
    | none => .error (.configInvalid path)
    | some c => .ok (c.resolveFrom (path.parent?.getD ⟨"."⟩))

/-- the name of the configuration file -/
def fileName : Path := ⟨"ngpass.json"⟩

/-- the files that mark the root of a project -/
def markers : List Path := [fileName, ⟨"tsconfig.json"⟩]

/-- a file that marks the root of a project is in this directory -/
def isRoot (d : Disk) (dir : Path) : Bool := markers.any fun m => d.isThere (dir.join m)

/-- the configuration of the nearest project root at or above `dir`; without a file or a root, the defaults -/
def nearest (d : Disk) (dir : Path) : Except Error Config :=
  match dir.ancestors.find? (isRoot d) with
  | some root => if d.isFile (root.join fileName) then load d (root.join fileName) else .ok { rootDir := root }
  | none => .ok { rootDir := dir }

/-- the policy of a configured project -/
def policy (c : Config) : Policy := .ofPaths c.rootDir c.outDir c.skipPaths c.ignoreWarnings

end Config

end ClosurePipeline

/-
The manifest: which module each output defines and which modules it requires. Adding an output again replaces its entry.
-/
import ClosurePipeline.Json.Basic
import ClosurePipeline.Path.Normal
import ClosurePipeline.Path.Table

namespace ClosurePipeline

/-- the module an output defines and the modules it requires, in order and each once -/
structure ManifestEntry where
  moduleName : String
  referenced : List String := []
deriving DecidableEq, Repr

namespace ManifestEntry

/-- puts a name into a sorted list, unless it is there -/
def insertName (name : String) : List String → List String
  | [] => [name]
  | n :: ns => if name < n then name :: n :: ns else if name = n then n :: ns else n :: insertName name ns

/-- the entry as JSON -/
def toJson (e : ManifestEntry) : Json :=
  .obj [("moduleName", .str e.moduleName), ("referencedModules", Json.strs e.referenced)]

end ManifestEntry

/-- entries by output path -/
structure Manifest where
  entries : PathTable ManifestEntry := {}
deriving Repr

namespace Manifest

/-- an output defines a module -/
def addModule (m : Manifest) (file : Path) (name : String) : Manifest := ⟨m.entries.insert file ⟨name, []⟩⟩

/-- an output requires a module; of an output that is not listed nothing is kept -/
def addReferenced (m : Manifest) (file : Path) (name : String) : Manifest :=
  ⟨m.entries.modify file fun e => { e with referenced := ManifestEntry.insertName name e.referenced }⟩

/-- the modules defined -/
def modules (m : Manifest) : List String := m.entries.values.map (·.moduleName)

/-- the outputs listed -/
def files (m : Manifest) : List Path := m.entries.keys

/-- the first output that defines a module -/
def fileFor? (m : Manifest) (name : String) : Option Path :=
  (m.entries.entries.find? fun e => e.2.moduleName == name).map Prod.fst

/-- the entry of an output -/
def entry? (m : Manifest) (file : Path) : Option ManifestEntry := m.entries.get? file

/-- the modules an output requires -/
def referenced (m : Manifest) (file : Path) : List String := ((m.entry? file).map (·.referenced)).getD []

/-- how many outputs are listed -/
def size (m : Manifest) : Nat := m.entries.size

/-- a line with module and file for each output, and an indented line for each module it requires -/
def render (m : Manifest) : String :=
  String.join (m.entries.entries.map fun (file, e) =>
    e.moduleName ++ " " ++ file.toSlash ++ "\n" ++ String.join (e.referenced.map fun r => "  " ++ r ++ "\n"))

/-- the manifest as JSON -/
def toJson (m : Manifest) : Json := .obj (m.entries.entries.map fun (file, e) => (file.text, e.toJson))

end Manifest

end ClosurePipeline
